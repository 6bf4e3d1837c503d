/-
  Sends and the exit of their target (kernel/src/ipc/receive.rs `unblock_waiters_for`, `syscall_exit`).

  An exit marks its task `Exited`, lists all tasks and frees those that wait for it.  A send checks for `Exited` in one
  section and blocks in a later one, so a send that was past its check when the task was marked can block after the
  sweep has been past its sender, and nobody frees it.  `no_waiter_outlives`: with no such send there is no such sender.

  ## The invariant
  `ExitInv` follows each exit: a leaving task is exited and no send to it is past its check (`barred`); the sweep has
  still to look at whoever waits (`todo`); when it is done nobody waits (`swept`).
-/
import Folkering.Ipc.Interleaving

namespace Folkering.Ipc

open Function Option

/-! ## Places -/

namespace Pc

/-- The task is exiting or has exited. -/
def leaving : Pc → Bool
  | .exitSnapshot | .exitSweep _ | .exitRemove | .gone => true
  | _ => false

/-- `unblock_waiters_for` has returned. -/
def swept : Pc → Bool
  | .exitRemove | .gone => true
  | _ => false

/-- A blocking send to `e` that has found it alive and has not blocked yet. -/
def Committed (e : Nat) : Pc → Prop
  | .sendNumber sync target _ _ _ => sync = true ∧ target = e
  | .sendPush sync target _ => sync = true ∧ target = e
  | .sendBlock target _ => target = e
  | _ => False

/-- A blocking send to `e` that has sections to go. -/
def SendsTo (e : Nat) : Pc → Prop
  | .sendCheck sync target _ _ _ => sync = true ∧ target = e
  | .sendNumber sync target _ _ _ => sync = true ∧ target = e
  | .sendPush sync target _ => sync = true ∧ target = e
  | .sendBlock target _ => target = e
  | .sendWake sync target => sync = true ∧ target = e
  | _ => False

theorem leaving_of_swept {pc : Pc} (h : pc.swept = true) : pc.leaving = true := by
  cases pc <;> first | rfl | cases h

end Pc

/-- **No waiter outlives its server**: when the sweep of an exit is over and no send to its task is under way, nobody
    waits for it. -/
def Fine.NoWaiterOutlives (w : Fine) : Prop :=
  ∀ e, (w.pc e).swept = true → (∀ t, ¬ (w.pc t).SendsTo e) → ∀ t, ¬ w.sys.WaitsFor t e

instance (e : Nat) (pc : Pc) : Decidable (pc.Committed e) := by
  unfold Pc.Committed
  split <;> infer_instance

/-- The condition on a move: a task exits when no send to it is between its check and its blocking. -/
def ExitsClear (w : Fine) : Move → Prop
  | .call e .exit => ∀ t ∈ w.table, ¬ (w.pc t).Committed e
  | _ => True

instance (w : Fine) (m : Move) : Decidable (ExitsClear w m) := by
  unfold ExitsClear
  split <;> infer_instance

/-! ## The invariant -/

/-- The table, the places of the tasks and their states fit together, also while tasks are leaving. -/
structure ExitInv (w : Fine) : Prop where
  stamped : w.sys.Stamped
  placed : ∀ t, w.pc t = .user ∨ w.pc t = .gone ∨ t ∈ w.table
  known : ∀ t, w.pc t ≠ .user ∨ t ∈ w.table → (w.sys.tasks t).isSome = true
  listed : ∀ t k, w.sys.tasks t = some k → t ∈ w.table ∨ w.pc t = .gone
  exited : ∀ t k, w.sys.tasks t = some k → (k.state = .exited ↔ (w.pc t).leaving = true)
  barred : ∀ e, (w.pc e).leaving = true → ∀ t, ¬ (w.pc t).Committed e
  todo : ∀ e l, w.pc e = .exitSweep l → ∀ t, w.sys.WaitsFor t e → t ∈ l
  swept : ∀ e, (w.pc e).swept = true → ∀ t, ¬ w.sys.WaitsFor t e

theorem Task.not_waitsFor_of_exited {k : Task} (h : k.state = .exited) (S : Nat) : ¬ k.WaitsFor S := by
  rintro (hw | ⟨hw, -⟩)
  · rw [h] at hw
    cases hw
  · rw [h] at hw
    cases hw

namespace ExitInv

variable {w w' : Fine}

/-- Whoever waits is in the table. -/
theorem mem_table (h : ExitInv w) {t S : Nat} (hw : w.sys.WaitsFor t S) : t ∈ w.table := by
  obtain ⟨k, hk, hw⟩ := hw
  rcases h.listed t k hk with hin | hgone
  · exact hin
  · have hexit := (h.exited t k hk).mpr (by rw [hgone]; rfl)
    exact absurd hw (Task.not_waitsFor_of_exited hexit S)

/-- A task in the middle of a call is in the table. -/
theorem mem_of_pc (h : ExitInv w) {t : Nat} (h1 : w.pc t ≠ .user) (h2 : w.pc t ≠ .gone) : t ∈ w.table := by
  rcases h.placed t with hu | hg | hin
  · exact absurd hu h1
  · exact absurd hg h2
  · exact hin

/-- A task in the middle of a call that is not its exit. -/
theorem within (h : ExitInv w) {t : Nat} {pc : Pc} (hpc : w.pc t = pc) (huser : pc ≠ .user) (hl : pc.leaving = false) :
    t ∈ w.table ∧ (w.pc t).leaving = false := by
  rw [← hpc] at huser hl
  refine ⟨h.mem_of_pc huser fun hgone => ?_, hl⟩
  rw [hgone] at hl
  cases hl

theorem not_leaving_of_alive (h : ExitInv w) {e : Nat} (he : w.sys.stateOf e ≠ some .exited) :
    (w.pc e).leaving = false := by
  by_contra hl
  have hl : (w.pc e).leaving = true := by simpa using hl
  have hsome := h.known e (.inl (by intro hu; rw [hu] at hl; cases hl))
  obtain ⟨k, hk⟩ := isSome_iff_exists.mp hsome
  exact he (by simp [Sys.stateOf, hk, (h.exited e k hk).mpr hl])

variable {t : Nat} {s : Sys}

/-- A section of a task of the table: who has a place, is known and is listed. -/
theorem tabled (h : ExitInv w) (hin : t ∈ w.table)
    (hsome : ∀ u, (s.tasks u).isSome = (w.sys.tasks u).isSome) (pc : Pc) :
    (∀ u, (w.goto t s pc).pc u = .user ∨ (w.goto t s pc).pc u = .gone ∨ u ∈ w.table) ∧
    (∀ u, (w.goto t s pc).pc u ≠ .user ∨ u ∈ w.table → (s.tasks u).isSome = true) ∧
    ∀ u k, s.tasks u = some k → u ∈ w.table ∨ (w.goto t s pc).pc u = .gone := by
  refine ⟨fun u => ?_, fun u hu => ?_, fun u k hk => ?_⟩ <;> by_cases hut : u = t
  · exact .inr (.inr (hut ▸ hin))
  · rw [Fine.pc_of_goto hut]
    exact h.placed u
  · rw [hsome]
    exact h.known u (.inr (hut ▸ hin))
  · rw [Fine.pc_of_goto hut] at hu
    rw [hsome]
    exact h.known u hu
  · exact .inl (hut ▸ hin)
  · have hknown := hsome u
    rw [hk] at hknown
    obtain ⟨k₀, hk₀⟩ := isSome_iff_exists.mp hknown.symm
    rw [Fine.pc_of_goto hut]
    exact h.listed u k₀ hk₀

/-- **A section of a task that does not leave**: tasks wait for nobody new unless it is the blocking section, and no
    send newly passes the check of a leaving task. -/
theorem stay {pc : Pc} (h : ExitInv w) (hin : t ∈ w.table) (hst : s.Stamped)
    (hsome : ∀ u, (s.tasks u).isSome = (w.sys.tasks u).isSome)
    (hexit : ∀ u k', s.tasks u = some k' → ∃ k, w.sys.tasks u = some k ∧ k.KeepsExit k')
    (hwaits : ∀ u S, s.WaitsFor u S → w.sys.WaitsFor u S ∨ (w.pc S).leaving = false)
    (hl : (w.pc t).leaving = false) (hl' : pc.leaving = false)
    (hcommit : ∀ e, pc.Committed e → (w.pc t).Committed e ∨ (w.pc e).leaving = false) : ExitInv (w.goto t s pc) := by
  -- a place that leaves, after the section, is one that left before, of another task
  have hback : ∀ {e}, ((w.goto t s pc).pc e).leaving = true → e ≠ t ∧ (w.goto t s pc).pc e = w.pc e := by
    intro e he
    rw [Fine.goto_pc] at he ⊢
    split at he
    · rw [hl'] at he
      cases he
    · next hne => exact ⟨hne, if_neg hne⟩
  obtain ⟨hplaced, hknown, hlisted⟩ := h.tabled hin hsome pc
  refine ⟨hst, hplaced, hknown, hlisted, fun u k' hk' => ?_, fun e he u hu => ?_, fun e l he u hw => ?_,
    fun e he u hw => ?_⟩
  · obtain ⟨k, hk, hkeep⟩ := hexit u k' hk'
    refine Iff.trans hkeep ((h.exited u k hk).trans ?_)
    by_cases hut : u = t
    · subst hut
      rw [Fine.goto_pc_self, hl, hl']
    · rw [Fine.pc_of_goto hut]
  · obtain ⟨-, hpe⟩ := hback he
    rw [hpe] at he
    by_cases hut : u = t
    · subst hut
      rw [Fine.goto_pc_self] at hu
      rcases hcommit e hu with hu | hfree
      · exact h.barred e he u hu
      · rw [hfree] at he
        cases he
    · rw [Fine.pc_of_goto hut] at hu
      exact h.barred e he u hu
  · obtain ⟨-, hpe⟩ := hback (e := e) (by rw [he]; rfl)
    rw [hpe] at he
    rcases hwaits u e hw with hw | hfree
    · exact h.todo e l he u hw
    · rw [he] at hfree
      cases hfree
  · obtain ⟨-, hpe⟩ := hback (Pc.leaving_of_swept he)
    rw [hpe] at he
    rcases hwaits u e hw with hw | hfree
    · exact h.swept e he u hw
    · rw [Pc.leaving_of_swept he] at hfree
      cases hfree

/-- The usual case: the system settles. -/
theorem settle {pc : Pc} (h : ExitInv w) (hin : t ∈ w.table) (hs : w.sys.Settled s)
    (hl : (w.pc t).leaving = false) (hl' : pc.leaving = false)
    (hcommit : ∀ e, pc.Committed e → (w.pc t).Committed e ∨ (w.pc e).leaving = false) : ExitInv (w.goto t s pc) := by
  refine h.stay hin (hs.calmer.stamped h.stamped) hs.isSome_eq (fun u k' hk' => ?_)
    (fun u S hw => .inl (hs.calmer.waitsFor h.stamped hw)) hl hl' hcommit
  obtain ⟨k, hk, hr⟩ := hs.back hk'
  exact ⟨k, hk, hr.2⟩

/-- The state word of a task that is not leaving. -/
theorem ne_exited (h : ExitInv w) {t : Nat} {k : Task} (hk : w.sys.tasks t = some k)
    (hl : (w.pc t).leaving = false) : k.state ≠ .exited := by
  intro hs
  rw [(h.exited t k hk).mp hs] at hl
  cases hl

/-- The blocking section of a send: its target is not leaving. -/
theorem block {t target msgId : Nat} (h : ExitInv w) (hpc : w.pc t = .sendBlock target msgId) :
    ExitInv (w.goto t (w.sys.block t target msgId) (.sendWake true target)) := by
  have hfree : (w.pc target).leaving = false := by
    by_contra hl
    exact h.barred target (by simpa using hl) t (by rw [hpc]; rfl)
  have hl : (w.pc t).leaving = false := by rw [hpc]; rfl
  refine h.stay (h.mem_of_pc (by simp [hpc]) (by simp [hpc])) (Sys.stamped_block h.stamped t target msgId)
    (fun u => ?_) (fun u k' hk' => ?_) (fun u S hw => ?_) hl rfl (fun e he => by cases he)
  · by_cases hut : u = t
    · subst hut
      simp [Sys.block, Sys.update]
    · simp [Sys.block, Sys.update, update_of_ne hut]
  · rcases Sys.tasks_update hk' with ⟨-, hk⟩ | ⟨rfl, k, hk, rfl⟩
    · exact ⟨k', hk, Iff.rfl⟩
    · refine ⟨k, hk, ?_⟩
      have hne := h.ne_exited hk hl
      simp [Task.KeepsExit, hne]
  · rcases Sys.waitsFor_block hw with hw | ⟨-, rfl⟩
    · exact .inl hw
    · exact .inr hfree

/-- **A section of an exit**: the system settles, the task goes on leaving, and what the new place says about the
    waiters holds. -/
theorem leave {pc : Pc} (h : ExitInv w) (hs : w.sys.Settled s) (hpc : w.pc t ≠ .gone)
    (hl : (w.pc t).leaving = true) (hl' : pc.leaving = true)
    (htodo : ∀ l, pc = .exitSweep l → ∀ u, s.WaitsFor u t → u ∈ l)
    (hswept : pc.swept = true → ∀ u, ¬ s.WaitsFor u t) : ExitInv (w.goto t s pc) := by
  have hin : t ∈ w.table := h.mem_of_pc (by intro hu; rw [hu] at hl; cases hl) hpc
  have hleave : ∀ e, ((w.goto t s pc).pc e).leaving = (w.pc e).leaving := by
    intro e
    rw [Fine.goto_pc]
    split
    · next he => rw [he, hl, hl']
    · rfl
  obtain ⟨hplaced, hknown, hlisted⟩ := h.tabled hin hs.isSome_eq pc
  refine ⟨hs.calmer.stamped h.stamped, hplaced, hknown, hlisted, fun u k' hk' => ?_, fun e he u hu => ?_,
    fun e l he u hw => ?_, fun e he u hw => ?_⟩
  · obtain ⟨k, hk, hr⟩ := hs.back hk'
    rw [hleave]
    exact Iff.trans hr.2 (h.exited u k hk)
  · rw [hleave] at he
    by_cases hut : u = t
    · subst hut
      rw [Fine.goto_pc_self] at hu
      cases pc <;> first | exact hu | cases hl'
    · rw [Fine.pc_of_goto hut] at hu
      exact h.barred e he u hu
  · by_cases het : e = t
    · subst het
      rw [Fine.goto_pc_self] at he
      exact htodo l he u hw
    · rw [Fine.pc_of_goto het] at he
      exact h.todo e l he u (hs.calmer.waitsFor h.stamped hw)
  · by_cases het : e = t
    · subst het
      rw [Fine.goto_pc_self] at he
      exact hswept he u hw
    · rw [Fine.pc_of_goto het] at he
      exact h.swept e he u (hs.calmer.waitsFor h.stamped hw)

/-- The first section of an exit, when no send is past its check. -/
theorem exit (h : ExitInv w) (hpc : w.pc t = .user) (hin : t ∈ w.table)
    (hclear : ∀ u ∈ w.table, ¬ (w.pc u).Committed t) :
    ExitInv (w.goto t (w.sys.update t fun task => { task with state := .exited }) .exitSnapshot) := by
  have hcalm : w.sys.Calmer (w.sys.update t fun task => { task with state := .exited }) := by
    refine Sys.along_update (fun k => (Task.Settles.refl k).1) fun k _ _ => ⟨fun S hS => (by cases hS), fun S hw => ?_⟩
    exact absurd hw (Task.not_waitsFor_of_exited rfl S)
  obtain ⟨hplaced, hknown, hlisted⟩ := h.tabled hin hcalm.isSome_eq .exitSnapshot
  refine ⟨hcalm.stamped h.stamped, hplaced, hknown, hlisted, fun u k' hk' => ?_, fun e he u hu => ?_,
    fun e l he u hw => ?_, fun e he u hw => ?_⟩
  · rcases Sys.tasks_update hk' with ⟨hut, hk⟩ | ⟨rfl, k, hk, rfl⟩
    · rw [Fine.pc_of_goto hut]
      exact h.exited u k' hk
    · rw [Fine.goto_pc_self]
      exact ⟨fun _ => rfl, fun _ => rfl⟩
  · -- the exiting task sends to nobody; the others are clear of it
    have hut : u ≠ t := by
      rintro rfl
      rw [Fine.goto_pc_self] at hu
      exact hu
    rw [Fine.pc_of_goto hut] at hu
    by_cases het : e = t
    · subst het
      refine hclear u (h.mem_of_pc ?_ ?_) hu
      · intro hp
        rw [hp] at hu
        exact hu
      · intro hp
        rw [hp] at hu
        exact hu
    · rw [Fine.pc_of_goto het] at he
      exact h.barred e he u hu
  · have het : e ≠ t := by
      rintro rfl
      rw [Fine.goto_pc_self] at he
      cases he
    rw [Fine.pc_of_goto het] at he
    exact h.todo e l he u (hcalm.waitsFor h.stamped hw)
  · have het : e ≠ t := by
      rintro rfl
      rw [Fine.goto_pc_self] at he
      cases he
    rw [Fine.pc_of_goto het] at he
    exact h.swept e he u (hcalm.waitsFor h.stamped hw)

/-- The last section of an exit: the task leaves the table. -/
theorem remove (h : ExitInv w) (hpc : w.pc t = .exitRemove) :
    ExitInv { w.goto t w.sys .gone with table := w.table.erase t } := by
  have hgo : ExitInv (w.goto t w.sys .gone) := by
    refine h.leave (Sys.Settled.refl _) (by simp [hpc]) (by rw [hpc]; rfl) rfl (fun l hl => by cases hl) fun _ => ?_
    exact h.swept t (by rw [hpc]; rfl)
  have hgone : (w.goto t w.sys .gone).pc t = .gone := Fine.goto_pc_self _ _ _ _
  refine ⟨hgo.stamped, fun u => ?_, fun u hu => ?_, fun u k hk => ?_, hgo.exited, hgo.barred, hgo.todo, hgo.swept⟩
  · by_cases hut : u = t
    · subst hut
      exact .inr (.inl hgone)
    · rcases hgo.placed u with hp | hp | hp
      · exact .inl hp
      · exact .inr (.inl hp)
      · exact .inr (.inr ((List.mem_erase_of_ne hut).mpr hp))
  · exact hgo.known u (hu.imp id List.mem_of_mem_erase)
  · by_cases hut : u = t
    · subst hut
      exact .inr hgone
    · rcases hgo.listed u k hk with hp | hp
      · exact .inl ((List.mem_erase_of_ne hut).mpr hp)
      · exact .inr hp

theorem spawn (h : ExitInv w) (hnew : w.sys.tasks t = none) : ExitInv { w with
      sys := { w.sys with tasks := update w.sys.tasks t (some .new) }, table := t :: w.table } := by
  have huser : w.pc t = .user := by
    by_contra hne
    have hsome := h.known t (.inl hne)
    rw [hnew] at hsome
    cases hsome
  have htask : ∀ {u k}, update w.sys.tasks t (some .new) u = some k →
      u = t ∧ k = .new ∨ w.sys.tasks u = some k := by
    intro u k hk
    by_cases hut : u = t
    · subst hut
      rw [update_self] at hk
      exact .inl ⟨rfl, (some.inj hk).symm⟩
    · rw [update_of_ne hut] at hk
      exact .inr hk
  have hwaits : ∀ {u S}, Sys.WaitsFor { w.sys with tasks := update w.sys.tasks t (some .new) } u S →
      w.sys.WaitsFor u S := by
    rintro u S ⟨k, hk, hw⟩
    rcases htask hk with ⟨-, rfl⟩ | hk
    · rcases hw with hw | ⟨hw, -⟩ <;> cases hw
    · exact ⟨k, hk, hw⟩
  refine ⟨fun u k hk => ?_, fun u => ?_, fun u hu => ?_, fun u k hk => ?_, fun u k hk => ?_, h.barred,
    fun e l he u hw => h.todo e l he u (hwaits hw), fun e he u hw => h.swept e he u (hwaits hw)⟩
  · rcases htask hk with ⟨-, rfl⟩ | hk
    · intro S hS
      cases hS
    · exact h.stamped u k hk
  · rcases h.placed u with hp | hp | hp
    · exact .inl hp
    · exact .inr (.inl hp)
    · exact .inr (.inr (List.mem_cons_of_mem _ hp))
  · by_cases hut : u = t
    · subst hut
      simp
    · simp only [update_of_ne hut]
      refine h.known u (hu.imp id fun hmem => ?_)
      rcases List.mem_cons.mp hmem with heq | hmem
      · exact absurd heq hut
      · exact hmem
  · rcases htask hk with ⟨rfl, -⟩ | hk
    · exact .inl List.mem_cons_self
    · exact (h.listed u k hk).imp (List.mem_cons_of_mem _) id
  · rcases htask hk with ⟨rfl, rfl⟩ | hk
    · rw [huser]
      exact ⟨fun hs => (by cases hs), fun hl => (by cases hl)⟩
    · exact h.exited u k hk

/-! ## The sweep -/

theorem settled_sweep (exiting tid : Nat) : s.Settled (s.sweep exiting tid) := by
  refine Sys.settled_update fun k _ => ?_
  split
  · next hc =>
    refine Task.settles_of_free (fun he => ?_) (.inl rfl)
    rcases hc.2 with hs | hs <;> rw [he] at hs <;> cases hs
  · exact .refl k

/-- A stamped task that was swept waits no longer. -/
theorem not_waitsFor_sweep (hs : s.Stamped) (exiting tid : Nat) : ¬ (s.sweep exiting tid).WaitsFor tid exiting := by
  rintro ⟨k', hk', hw⟩
  rcases Sys.tasks_update hk' with ⟨hne, -⟩ | ⟨-, k, hk, rfl⟩
  · exact hne rfl
  split at hw
  · rcases hw with hw | ⟨hw, -⟩ <;> cases hw
  · next hc =>
    refine hc ?_
    rcases hw with hw | ⟨hw, hb⟩
    · exact ⟨hs tid k hk exiting hw, .inl hw⟩
    · exact ⟨hb, .inr hw⟩

/-- One task of the sweep. -/
theorem sweepOne {t tid : Nat} {l : List Nat} (h : ExitInv w) (hpc : w.pc t = .exitSweep (tid :: l)) :
    ExitInv (w.goto t (if tid ∈ w.table then w.sys.sweep t tid else w.sys) (.exitSweep l)) := by
  have hset : w.sys.Settled (if tid ∈ w.table then w.sys.sweep t tid else w.sys) := by
    split
    · exact settled_sweep t tid
    · exact Sys.Settled.refl _
  refine h.leave hset (by simp [hpc]) (by rw [hpc]; rfl) rfl (fun l' hl' u hw => ?_) fun hs => by cases hs
  cases hl'
  have hold := hset.calmer.waitsFor h.stamped hw
  rcases List.mem_cons.mp (h.todo t _ hpc u hold) with rfl | hmem
  · rw [if_pos (h.mem_table hold)] at hw
    exact absurd hw (not_waitsFor_sweep h.stamped t u)
  · exact hmem

/-! ## One move -/

theorem call {c : IpcCall} (h : ExitInv w) (hpc : w.pc t = .user) (hin : t ∈ w.table)
    (hok : ExitsClear w (.call t c)) : ExitInv (w.call t c) := by
  have hl : (w.pc t).leaving = false := by rw [hpc]; rfl
  cases c with
  | send sync target payload permitted transferred =>
    simp only [Fine.call]
    split
    · exact h
    · exact h.settle hin (Sys.Settled.refl _) hl rfl fun e he => he.elim
  | receive =>
    simp only [Fine.call]
    cases hpop : w.sys.popMessage t with
    | none => exact h.settle hin (Sys.Settled.refl _) hl rfl fun e he => he.elim
    | some p => exact h.settle hin (Sys.settled_popMessage hpop) hl rfl fun e he => he.elim
  | recvAsync =>
    simp only [Fine.call]
    cases hpop : w.sys.popMessage t with
    | none => exact h
    | some p => exact h.settle hin (Sys.settled_popMessage hpop) hl rfl fun e he => he.elim
  | reply payload =>
    simp only [Fine.call]
    split
    · exact h
    · split
      · exact h
      · exact h.settle hin (Sys.settled_ipcReply t _ payload) hl rfl fun e he => he.elim
  | replyToken token payload =>
    simp only [Fine.call]
    split
    · exact h
    · exact h.settle hin (Sys.settled_ipcReplyWithToken t token payload) hl rfl fun e he => he.elim
  | exit => exact h.exit hpc hin hok

theorem advance (h : ExitInv w) (hm : w.advance t = some w') : ExitInv w' := by
  cases hpc : w.pc t with
  | user => simp [Fine.advance, hpc] at hm
  | sendYield => simp [Fine.advance, hpc] at hm
  | gone => simp [Fine.advance, hpc] at hm
  | exitSnapshot =>
    simp only [Fine.advance, hpc, some.injEq] at hm
    subst hm
    refine h.leave (Sys.Settled.refl _) (by simp [hpc]) (by rw [hpc]; rfl) rfl (fun l hl u hw => ?_)
      fun hs => by cases hs
    cases hl
    exact h.mem_table hw
  | exitSweep todo =>
    cases todo with
    | nil =>
      simp only [Fine.advance, hpc, some.injEq] at hm
      subst hm
      refine h.leave (Sys.Settled.refl _) (by simp [hpc]) (by rw [hpc]; rfl) rfl (fun l hl => by cases hl)
        fun _ u hw => ?_
      exact List.not_mem_nil (h.todo t [] hpc u hw)
    | cons tid todo =>
      simp only [Fine.advance, hpc, some.injEq] at hm
      subst hm
      exact h.sweepOne hpc
  | exitRemove =>
    simp only [Fine.advance, hpc, some.injEq] at hm
    subst hm
    exact h.remove hpc
  | sendCheck sync target payload permitted transferred =>
    obtain ⟨hin, hl⟩ := h.within hpc Pc.noConfusion rfl
    simp only [Fine.advance, hpc] at hm
    split at hm
    · cases hm
      exact h.settle hin (Sys.Settled.refl _) hl rfl fun e he => he.elim
    · next halive =>
      -- the check: the target is not leaving
      cases hm
      refine h.settle hin (Sys.Settled.refl _) hl rfl fun e he => .inr ?_
      obtain ⟨-, rfl⟩ := he
      exact h.not_leaving_of_alive halive
  | sendNumber sync target payload permitted transferred =>
    obtain ⟨hin, hl⟩ := h.within hpc Pc.noConfusion rfl
    simp only [Fine.advance, hpc] at hm
    split at hm
    · cases hm
      exact h.settle hin (Sys.Settled.refl _) hl rfl fun e he => he.elim
    · split at hm
      · cases hm
        exact h.settle hin Sys.settled_tick hl rfl fun e he => he.elim
      · cases hm
        refine h.settle hin Sys.settled_tick hl rfl fun e he => .inl ?_
        rw [hpc]
        exact he
  | sendPush sync target msg =>
    obtain ⟨hin, hl⟩ := h.within hpc Pc.noConfusion rfl
    simp only [Fine.advance, hpc] at hm
    split at hm
    · cases hm
      exact h.settle hin (Sys.Settled.refl _) hl rfl fun e he => he.elim
    · cases hm
      cases sync with
      | false => exact h.settle hin (Sys.settled_setQueue target _) hl rfl fun e he => he.elim
      | true =>
        refine h.settle hin (Sys.settled_setQueue target _) hl rfl fun e he => .inl ?_
        rw [hpc]
        exact ⟨rfl, he⟩
  | sendBlock target msgId =>
    simp only [Fine.advance, hpc, some.injEq] at hm
    subst hm
    exact h.block hpc
  | sendWake sync target =>
    obtain ⟨hin, hl⟩ := h.within hpc Pc.noConfusion rfl
    simp only [Fine.advance, hpc, some.injEq] at hm
    subst hm
    cases sync with
    | false => exact h.settle hin (Sys.settled_wakeReceiver target) hl rfl fun e he => he.elim
    | true => exact h.settle hin (Sys.settled_wakeReceiver target) hl rfl fun e he => he.elim
  | recvBlock =>
    obtain ⟨hin, hl⟩ := h.within hpc Pc.noConfusion rfl
    simp only [Fine.advance, hpc, some.injEq] at hm
    subst hm
    refine h.settle hin (Sys.settled_update fun k hk => ?_) hl rfl fun e he => he.elim
    exact Task.settles_of_free (h.ne_exited hk hl) (.inr rfl)
  | recvMark msg =>
    obtain ⟨hin, hl⟩ := h.within hpc Pc.noConfusion rfl
    simp only [Fine.advance, hpc, some.injEq] at hm
    subst hm
    refine h.settle hin ?_ hl rfl fun e he => he.elim
    split
    · exact Sys.settled_markWaiting t msg
    · exact Sys.Settled.refl _
  | recvKeep msg =>
    obtain ⟨hin, hl⟩ := h.within hpc Pc.noConfusion rfl
    simp only [Fine.advance, hpc, some.injEq] at hm
    subst hm
    exact h.settle hin (Sys.settled_keepMessage t msg) hl rfl fun e he => he.elim

/-- **The step lemma**: a clear move keeps the invariant. -/
theorem move {m : Move} (h : ExitInv w) (hok : ExitsClear w m) (hm : w.move m = some w') : ExitInv w' := by
  cases m with
  | call t c =>
    simp only [Fine.move, ite_none_right_eq_some, some.injEq] at hm
    obtain ⟨⟨hpc, hin⟩, rfl⟩ := hm
    exact h.call hpc hin hok
  | advance t => exact h.advance hm
  | yieldReturns t =>
    simp only [Fine.move, ite_none_right_eq_some, some.injEq] at hm
    obtain ⟨hpc, rfl⟩ := hm
    obtain ⟨hin, hl⟩ := h.within hpc Pc.noConfusion rfl
    exact h.settle hin (Sys.settled_update fun _ _ => Task.settles_of_same rfl rfl) hl rfl fun e he => he.elim
  | resume t =>
    simp only [Fine.move, ite_none_right_eq_some, some.injEq] at hm
    obtain ⟨⟨hpc, -⟩, rfl⟩ := hm
    obtain ⟨hin, hl⟩ := h.within hpc Pc.noConfusion rfl
    exact h.settle hin (Sys.settled_update fun _ _ => Task.settles_of_same rfl rfl) hl rfl fun e he => he.elim
  | spawn t =>
    simp only [Fine.move, ite_none_right_eq_some, some.injEq] at hm
    obtain ⟨hnew, rfl⟩ := hm
    exact h.spawn hnew

theorem boot (ids : List Nat) : ExitInv (.boot ids) := by
  have htask : ∀ {t k}, (Fine.boot ids).sys.tasks t = some k → t ∈ ids ∧ k = .new := by
    intro t k hk
    simp only [Fine.boot] at hk
    split at hk
    · next hin => exact ⟨hin, (some.inj hk).symm⟩
    · cases hk
  refine ⟨fun t k hk S hS => ?_, fun t => .inl rfl, fun t ht => ?_, fun t k hk => .inl (htask hk).1, fun t k hk => ?_,
    fun e he => (by cases he), fun e l he => (by cases he), fun e he => (by cases he)⟩
  · rw [(htask hk).2] at hS
    cases hS
  · rcases ht with ht | ht
    · exact absurd rfl ht
    · have hin : t ∈ ids := ht
      simp [Fine.boot, hin]
  · rw [(htask hk).2]
    exact ⟨fun hs => (by cases hs), fun hl => (by cases hl)⟩

end ExitInv

/-- **No waiter outlives its server**, in every run in which a task exits only while no send to it is between its check
    and its blocking. -/
theorem no_waiter_outlives {ids : List Nat} {w : Fine} (h : FineReach ExitsClear ids w) : w.NoWaiterOutlives := by
  have hinv : ExitInv w := h.invariant (.boot ids) ExitInv.move
  exact fun e he _ t => hinv.swept e he t

/-- Task 1 waits for task 2, which exits and frees it. -/
theorem no_waiter_outlives_freed :
    ∃ w, FineReach ExitsClear [1, 2] w ∧ w.pc 2 = .gone ∧ w.sys.stateOf 1 = some .runnable ∧ w.NoWaiterOutlives := by
  have hrun : ((Fine.boot [1, 2]).run ExitsClear [.call 1 (.send true 2 [7, 0, 0, 0] true true), .advance 1, .advance 1,
      .advance 1, .advance 1, .advance 1, .call 2 .exit, .advance 2, .advance 2, .advance 2, .advance 2,
      .advance 2]).map (fun w => (w.pc 2, w.sys.stateOf 1)) = some (.gone, some .runnable) := by decide +kernel
  obtain ⟨w, hw, hfacts⟩ := map_eq_some_iff.mp hrun
  obtain ⟨hpc, hstate⟩ := Prod.mk.inj hfacts
  have h := FineReach.run .boot hw
  exact ⟨w, h, hpc, hstate, no_waiter_outlives h⟩

/-- **A waiter that is left behind.**  Task 1 has found task 2 alive; task 2 exits, its sweep and all; task 1 pushes its
    message, blocks and yields.  No section is left to be done, and task 1 waits for a task that is gone. -/
theorem waiter_left_behind :
    ∃ w, FineReach (fun _ _ => True) [1, 2] w ∧ w.pc 2 = .gone ∧ w.sys.stateOf 1 = some (.blockedOnSend 2) ∧
      ¬ w.NoWaiterOutlives := by
  have hrun : ((Fine.boot [1, 2]).run (fun _ _ => True) [.call 1 (.send true 2 [7, 0, 0, 0] true true), .advance 1,
      .call 2 .exit, .advance 2, .advance 2, .advance 2, .advance 2, .advance 2, .advance 1, .advance 1, .advance 1,
      .advance 1]).map (fun w => (w.pc 1, w.pc 2, w.sys.stateOf 1)) =
        some (.sendYield, .gone, some (.blockedOnSend 2)) := by decide +kernel
  obtain ⟨w, hw, hfacts⟩ := map_eq_some_iff.mp hrun
  simp only [Prod.mk.injEq] at hfacts
  obtain ⟨h1, h2, hstate⟩ := hfacts
  refine ⟨w, FineReach.run .boot hw, h2, hstate, fun hno => ?_⟩
  obtain ⟨k, hk, hs⟩ := map_eq_some_iff.mp hstate
  refine hno 2 (by rw [h2]; rfl) (fun t ht => ?_) 1 ⟨k, hk, .inl hs⟩
  by_cases h12 : t = 1 ∨ t = 2
  · rcases h12 with rfl | rfl
    · rw [h1] at ht
      exact ht
    · rw [h2] at ht
      exact ht
  · rw [Fine.pc_of_run hw (by simp [Move.task]; omega)] at ht
    exact ht

end Folkering.Ipc
