/-
  Authority is what was GRANTED and not revoked.

  Every sequence of calls leaves a ledger: a grant or a transfer issues an id to a task, a revocation
  retires an id.  `Accounted` relates the kernel to that ledger.
    * `Tidy` — the slots from `nextId` on are empty.  So the branch of `allocate` that looks for a
      free slot is never taken, ids are issued in order and NO ID IS EVER ISSUED TWICE; a list that
      still holds the id of a revoked capability can never meet another task's entry.
    * The price of never reusing an id: when the ids run out the table refuses every grant, even
      though revocations have emptied slots (`grant_full_only_when_live_iff`).
-/
import Folkering.Capability.Model
import Folkering.Lib.Ledger

namespace Folkering.Capability

open Ledger Function

/-! ## The ledger of a sequence of calls -/

/-- What the kernel should have recorded, one line per capability. -/
abbrev Ledger := List (Line CapabilityId (TaskId × CapabilityType))

/-- The line an issue leaves: the id, for the task, of the type. -/
def issueLine (task : TaskId) (capType : CapabilityType) :
    Except CapError (CapabilityId × Kernel) → Ledger
  | .ok (id, _) => [.issue id (task, capType)]
  | .error _ => []

/-- What one call adds to the ledger. -/
def Kernel.lines (k : Kernel) : Call → Ledger
  | .grant task capType => issueLine task capType (k.grant task capType)
  | .transfer fromTask toTask cap => match k.table.get cap.id with
    | some entry => issueLine toTask entry.capType (k.transfer fromTask toTask cap)
    | none => []
  | .revoke id | .revokeWithCleanup id => [.retire id]

/-- The ledger of a sequence of calls, oldest line first. -/
def Kernel.ledger (k : Kernel) : List Call → Ledger
  | [] => []
  | c :: cs => k.lines c ++ (k.step c).ledger cs

/-! ## Tidy tables -/

/-- Ids are issued in order: nothing lives at or above `nextId`. -/
structure Tidy (t : CapabilityTable) : Prop where
  pos : 0 < t.nextId
  le : t.nextId ≤ maxCapabilities
  free : ∀ i : Fin maxCapabilities, t.nextId ≤ i → t.entries i = none

theorem tidy_new : Tidy .new := by
  refine ⟨?_, ?_, ?_⟩
  · exact Nat.one_pos
  · decide
  · intro i _
    rfl

variable {t : CapabilityTable}

theorem Tidy.fill (h : Tidy t) (hn : t.nextId < maxCapabilities)
    (entry : CapabilityEntry) : Tidy (t.fill ⟨t.nextId, hn⟩ entry) := by
  refine ⟨Nat.succ_pos _, hn, ?_⟩
  intro i hi
  have hi' : t.nextId + 1 ≤ i := hi
  have hne : i ≠ ⟨t.nextId, hn⟩ := by
    rintro rfl
    exact absurd hi' (Nat.not_succ_le_self _)
  simpa [CapabilityTable.fill, update_of_ne hne] using h.free i (by omega)

/-- In a tidy table the search for a free slot is never reached. -/
theorem Tidy.allocate (h : Tidy t) (entry : CapabilityEntry) : t.allocate entry = if hn : t.nextId < maxCapabilities
      then .ok (t.nextId, t.fill ⟨t.nextId, hn⟩ entry) else .error .tableFull := by
  unfold CapabilityTable.allocate
  split
  · simp [h.free ⟨t.nextId, _⟩ le_rfl]
  · rfl

@[simp] theorem get_fill (t : CapabilityTable) (i : Fin maxCapabilities) (entry : CapabilityEntry)
    (id : CapabilityId) : (t.fill i entry).get id = if id = i then some entry else t.get id := by
  unfold CapabilityTable.get
  by_cases hid : id < maxCapabilities
  · by_cases heq : id = i
    · simp [CapabilityTable.fill, heq]
    · have hne : (⟨id, hid⟩ : Fin maxCapabilities) ≠ i := by
        rintro rfl
        exact heq rfl
      simp [CapabilityTable.fill, hid, heq, update_of_ne hne]
  · have heq : id ≠ i := by
      rintro rfl
      exact hid i.isLt
    simp [hid, heq]

theorem Tidy.get_eq_none (h : Tidy t) {id : CapabilityId} (hid : t.nextId ≤ id) : t.get id = none := by
  unfold CapabilityTable.get
  split
  · exact h.free _ hid
  · rfl

/-! ## What revoking does -/

/-- A table without the entry of an id. -/
def CapabilityTable.drop (t : CapabilityTable) (id : CapabilityId) : CapabilityTable :=
  match t.revoke id with
  | .ok t' => t'
  | .error _ => t

@[simp] theorem nextId_drop (t : CapabilityTable) (id : CapabilityId) : (t.drop id).nextId = t.nextId := by
  unfold CapabilityTable.drop CapabilityTable.revoke
  grind

@[simp] theorem get_drop (t : CapabilityTable) (id id' : CapabilityId) :
    (t.drop id).get id' = if id = id' then none else t.get id' := by
  unfold CapabilityTable.drop CapabilityTable.revoke CapabilityTable.get
  by_cases hid : id < maxCapabilities
  · cases he : t.entries ⟨id, hid⟩ with
    | none =>
      by_cases heq : id = id'
      · subst heq
        simp [hid, he]
      · simp [hid, he, heq]
    | some e =>
      by_cases heq : id = id'
      · subst heq
        simp [hid, he]
      · have hne : ∀ h : id' < maxCapabilities, (⟨id', h⟩ : Fin maxCapabilities) ≠ ⟨id, hid⟩ := by
          intro h hc
          exact heq (congrArg Fin.val hc).symm
        simp [hid, he, heq, update_of_ne (hne _)]
  · by_cases heq : id = id'
    · subst heq
      simp [hid]
    · simp [hid, heq]

theorem Tidy.drop (h : Tidy t) (id : CapabilityId) : Tidy (t.drop id) := by
  refine ⟨by simpa using h.pos, by simpa using h.le, ?_⟩
  intro i hi
  rw [nextId_drop] at hi
  have hget : (t.drop id).get i = none := by
    simp [h.get_eq_none hi]
  simpa [CapabilityTable.get] using hget

/-- Both kinds of revocation drop the entry and leave the tasks alone. -/
theorem step_revoke (k : Kernel) (id : CapabilityId) : k.step (.revoke id) = { k with table := k.table.drop id } := by
  simp only [Kernel.step, Kernel.revoke, CapabilityTable.drop]
  cases k.table.revoke id <;> rfl

@[simp] theorem table_freeBacking (k : Kernel) (ty : Option CapabilityType) : (k.freeBacking ty).table = k.table := by
  unfold Kernel.freeBacking
  split <;> rfl

@[simp] theorem tasks_freeBacking (k : Kernel) (ty : Option CapabilityType) : (k.freeBacking ty).tasks = k.tasks := by
  unfold Kernel.freeBacking
  split <;> rfl

theorem step_revokeWithCleanup (k : Kernel) (id : CapabilityId) :
    (k.step (.revokeWithCleanup id)).table = k.table.drop id ∧ (k.step (.revokeWithCleanup id)).tasks = k.tasks := by
  simp only [Kernel.step, Kernel.revokeWithCleanup, Kernel.revoke, CapabilityTable.drop,
    table_freeBacking]
  cases k.table.revoke id <;> simp

/-! ## The kernel accounts for its ledger -/

/-- The kernel holds what its ledger says: live entries are the issues that stand, and the list of a
    task holds the ids issued to it. -/
structure Accounted (k : Kernel) (led : Ledger) : Prop where
  tidy : Tidy k.table
  entries : ∀ id e, k.table.get id = some e ↔
    ∃ task capType, e = .new capType task ∧ Standing led id (task, capType)
  lists : ∀ task ids, k.tasks task = some ids →
    ∀ id, id ∈ ids ↔ ∃ capType, .issue id (task, capType) ∈ led
  issued : ∀ id v, .issue id v ∈ led → 0 < id ∧ id < k.table.nextId
  once : ∀ id v v', .issue id v ∈ led → .issue id v' ∈ led → v = v'
  gapless : ∀ id, 0 < id → id < k.table.nextId → ∃ v, .issue id v ∈ led
  count : k.table.nextId = issues led + 1

theorem accounted_boot (tasks : List TaskId) : Accounted (.boot tasks) [] := by
  refine ⟨tidy_new, ?_, ?_, ?_, ?_, ?_, rfl⟩
  · intro id e
    have hget : (Kernel.boot tasks).table.get id = none := by
      simp [Kernel.boot, CapabilityTable.get, CapabilityTable.new]
    simp [hget, not_standing_nil]
  · intro task ids h id
    simp only [Kernel.boot] at h
    split at h
    · cases h
      simp
    · cases h
  · simp
  · simp
  · intro id hpos hlt
    have : id < 1 := hlt
    omega

variable {led : Ledger} {k : Kernel}

/-- Granting: the next id is issued to the task. -/
theorem Accounted.grant (h : Accounted k led) (task : TaskId) (capType : CapabilityType) :
    Accounted (k.step (.grant task capType)) (led ++ k.lines (.grant task capType)) := by
  simp only [Kernel.step, Kernel.lines, Kernel.grant, h.tidy.allocate]
  by_cases hn : k.table.nextId < maxCapabilities
  · simp only [hn, ↓reduceDIte, issueLine]
    refine ⟨h.tidy.fill hn _, ?_, ?_, ?_, ?_, ?_, ?_⟩
    · intro id e
      simp only [Kernel.pushCapability, get_fill, standing_snoc_issue]
      by_cases hid : id = k.table.nextId
      · subst hid
        -- the id is new, so nothing issued before stands under it
        have hnew : ∀ v, ¬ Standing led k.table.nextId v := by
          intro v hv
          exact absurd (h.issued _ _ hv.issued).2 (lt_irrefl _)
        simp only [↓reduceIte, Option.some.injEq, hnew, false_or, true_and, Prod.mk.injEq]
        constructor
        · rintro rfl
          exact ⟨task, capType, rfl, rfl, rfl⟩
        · rintro ⟨_, _, rfl, rfl, rfl⟩
          rfl
      · simp only [hid, ↓reduceIte, h.entries, Ne.symm hid, false_and, or_false]
    · intro t ids ht id
      simp only [Kernel.pushCapability] at ht
      by_cases htt : t = task
      · subst htt
        simp only [update_self, Option.map_eq_some_iff] at ht
        obtain ⟨old, hold, rfl⟩ := ht
        simp [h.lists t old hold, exists_or]
      · rw [update_of_ne htt] at ht
        simp [h.lists t ids ht, htt]
    · intro id v hv
      simp only [Kernel.pushCapability, CapabilityTable.fill]
      rcases List.mem_append.mp hv with hv | hv
      · have := h.issued id v hv
        omega
      · obtain ⟨rfl, -⟩ : id = k.table.nextId ∧ v = (task, capType) := by simpa using hv
        exact ⟨h.tidy.pos, Nat.lt_succ_self _⟩
    · intro id v v' hv hv'
      have hold : ∀ w, .issue id w ∈ led → id ≠ k.table.nextId := by
        intro w hw
        exact (h.issued id w hw).2.ne
      simp only [List.mem_append, List.mem_singleton, Line.issue.injEq] at hv hv'
      rcases hv with hv | ⟨hv, rfl⟩ <;> rcases hv' with hv' | ⟨hv', rfl⟩
      · exact h.once id v v' hv hv'
      · exact absurd hv' (hold v hv)
      · exact absurd hv (hold v' hv')
      · rfl
    · intro id hpos hlt
      have hle : id ≤ k.table.nextId := Nat.le_of_lt_succ hlt
      rcases hle.lt_or_eq with hlt | rfl
      · obtain ⟨v, hv⟩ := h.gapless id hpos hlt
        exact ⟨v, List.mem_append_left _ hv⟩
      · exact ⟨(task, capType), by simp⟩
    · simp [Kernel.pushCapability, CapabilityTable.fill, h.count]
  · simpa [hn, issueLine] using h

/-- Retiring an id drops its entry. -/
theorem Accounted.retire {k k' : Kernel} (h : Accounted k led) (id : CapabilityId)
    (htable : k'.table = k.table.drop id) (htasks : k'.tasks = k.tasks) : Accounted k' (led ++ [.retire id]) := by
  refine ⟨?_, ?_, ?_, ?_, ?_, ?_, ?_⟩
  · rw [htable]
    exact h.tidy.drop id
  · intro id' e
    rw [htable, get_drop]
    simp only [standing_snoc_retire]
    by_cases hid : id = id'
    · simp [hid]
    · simp [hid, h.entries]
  · intro task ids ht id'
    rw [htasks] at ht
    simpa using h.lists task ids ht id'
  · intro id' v hv
    rw [htable, nextId_drop]
    exact h.issued id' v (by simpa using hv)
  · intro id' v v' hv hv'
    exact h.once id' v v' (by simpa using hv) (by simpa using hv')
  · intro id' hpos hlt
    rw [htable, nextId_drop] at hlt
    simpa using h.gapless id' hpos hlt
  · rw [htable, nextId_drop, issues_snoc_retire]
    exact h.count

/-- A transfer is a refusal that changes nothing, or a grant of the type of a live entry. -/
theorem transfer_cases (k : Kernel) (fromTask toTask : TaskId) (cap : TransferableCap) :
    (∃ e, k.transfer fromTask toTask cap = .error e) ∨ ∃ entry, k.table.get cap.id = some entry ∧
      k.transfer fromTask toTask cap = k.grant toTask entry.capType := by
  unfold Kernel.transfer
  split
  · split
    · split
      · rename_i entry hget
        split
        · exact .inl ⟨_, rfl⟩
        · exact .inr ⟨entry, hget, rfl⟩
      · exact .inl ⟨_, rfl⟩
    · exact .inl ⟨_, rfl⟩
  · exact .inl ⟨_, rfl⟩

theorem Accounted.transfer (h : Accounted k led) (fromTask toTask : TaskId) (cap : TransferableCap) :
    Accounted (k.step (.transfer fromTask toTask cap)) (led ++ k.lines (.transfer fromTask toTask cap)) := by
  rcases transfer_cases k fromTask toTask cap with ⟨e, he⟩ | ⟨entry, hget, heq⟩
  · have hlines : k.lines (.transfer fromTask toTask cap) = [] := by
      simp only [Kernel.lines, he, issueLine]
      split <;> rfl
    simpa [hlines, Kernel.step, he] using h
  · simpa [Kernel.step, Kernel.lines, heq, hget] using h.grant toTask entry.capType

theorem Accounted.step (h : Accounted k led) (c : Call) : Accounted (k.step c) (led ++ k.lines c) := by
  cases c with
  | grant task capType => exact h.grant task capType
  | transfer fromTask toTask cap => exact h.transfer fromTask toTask cap
  | revoke id =>
    rw [step_revoke]
    exact h.retire id rfl rfl
  | revokeWithCleanup id =>
    obtain ⟨htable, htasks⟩ := step_revokeWithCleanup k id
    exact h.retire id htable htasks

/-- A whole sequence of calls keeps the account. -/
theorem Accounted.run (h : Accounted k led) (cs : List Call) : Accounted (k.run cs) (led ++ k.ledger cs) := by
  induction cs generalizing k led with
  | nil => simpa [Kernel.run, Kernel.ledger] using h
  | cons c cs ih => simpa [Kernel.run, Kernel.ledger] using ih (h.step c)

theorem accounted (tasks : List TaskId) (cs : List Call) :
    Accounted ((Kernel.boot tasks).run cs) ((Kernel.boot tasks).ledger cs) := by
  simpa using (accounted_boot tasks).run cs

/-- **No id is skipped, none has two owners.** -/
theorem issued_once_iff (tasks : List TaskId) (cs : List Call) (id : CapabilityId) :
    (∃! v, .issue id v ∈ (Kernel.boot tasks).ledger cs) ↔ 0 < id ∧ id < ((Kernel.boot tasks).run cs).table.nextId := by
  have h := accounted tasks cs
  constructor
  · rintro ⟨v, hv, -⟩
    exact h.issued id v hv
  · rintro ⟨hpos, hlt⟩
    obtain ⟨v, hv⟩ := h.gapless id hpos hlt
    exact ⟨v, hv, fun v' hv' => h.once id v' v hv' hv⟩

/-! ## Tasks -/

/-- Calls neither create nor remove tasks. -/
theorem isSome_tasks_step (k : Kernel) (c : Call) (task : TaskId) :
    ((k.step c).tasks task).isSome = (k.tasks task).isSome := by
  have hgrant : ∀ t ty, ((k.step (.grant t ty)).tasks task).isSome = (k.tasks task).isSome := by
    intro t ty
    simp only [Kernel.step, Kernel.grant]
    cases k.table.allocate (.new ty t) with
    | error e => rfl
    | ok r =>
      simp only [Kernel.pushCapability]
      by_cases htt : task = t
      · simp [htt]
      · simp [update_of_ne htt]
  cases c with
  | grant t ty => exact hgrant t ty
  | transfer fromTask toTask cap =>
    rcases transfer_cases k fromTask toTask cap with ⟨e, he⟩ | ⟨entry, -, heq⟩
    · simp [Kernel.step, he]
    · simpa [Kernel.step, heq] using hgrant toTask entry.capType
  | revoke id => rw [step_revoke]
  | revokeWithCleanup id => rw [(step_revokeWithCleanup k id).2]

theorem isSome_tasks_run (k : Kernel) (cs : List Call) (task : TaskId) :
    ((k.run cs).tasks task).isSome = (k.tasks task).isSome := by
  induction cs generalizing k with
  | nil => rfl
  | cons c cs ih => exact (ih (k.step c)).trans (isSome_tasks_step k c task)

/-! ## Authority -/

/-- **Authority is exactly what was granted.**  After any sequence of calls a task has a capability
    iff some id that was issued to THIS task, by a grant or a transfer, for a type that grants it, has
    not been revoked since. -/
theorem hasCapability_iff_standing (tasks : List TaskId) (cs : List Call) (task : TaskId)
    (htask : task ∈ tasks) (required : CapabilityType) :
    ((Kernel.boot tasks).run cs).hasCapability task required = true ↔
      ∃ id capType, Standing ((Kernel.boot tasks).ledger cs) id (task, capType) ∧ capType.grants required = true := by
  have h := accounted tasks cs
  have hsome : (((Kernel.boot tasks).run cs).tasks task).isSome := by
    rw [isSome_tasks_run]
    simp [Kernel.boot, htask]
  obtain ⟨ids, hids⟩ := Option.isSome_iff_exists.mp hsome
  simp only [Kernel.hasCapability, hids, List.any_eq_true]
  constructor
  · rintro ⟨id, hmem, hauth⟩
    unfold Kernel.authorises at hauth
    split at hauth
    · rename_i entry hget
      obtain ⟨owner, capType, rfl, hst⟩ := (h.entries id entry).mp hget
      -- the entry under the id was issued to this task: ids are issued once
      obtain ⟨capType', hissue⟩ := (h.lists task ids hids id).mp hmem
      obtain ⟨rfl, rfl⟩ := Prod.mk.inj (h.once id _ _ hst.issued hissue)
      exact ⟨id, capType, hst, by simpa [CapabilityEntry.new] using hauth⟩
    · cases hauth
  · rintro ⟨id, capType, hst, hgrants⟩
    refine ⟨id, (h.lists task ids hids id).mpr ⟨capType, hst.issued⟩, ?_⟩
    have hget := (h.entries id _).mpr ⟨task, capType, rfl, hst⟩
    simp [Kernel.authorises, hget, CapabilityEntry.new, hgrants]

/-- A task that was granted `IpcSendAny`, then lost it, and another task that got the same right by
    transfer in between: the first may no longer send, the second may. -/
theorem hasCapability_after_transfer_and_revoke : (1 ∈ [1, 2] ∧ ¬ ∃ id capType, Standing ((Kernel.boot [1, 2]).ledger
        [.grant 1 .ipcSendAny, .transfer 1 2 ⟨1⟩, .revoke 1]) id (1, capType) ∧ capType.grants (.ipcSend 7) = true) ∧
    (2 ∈ [1, 2] ∧ ∃ id capType, Standing ((Kernel.boot [1, 2]).ledger
        [.grant 1 .ipcSendAny, .transfer 1 2 ⟨1⟩, .revoke 1]) id (2, capType) ∧
        capType.grants (.ipcSend 7) = true) := by
  refine ⟨⟨by decide, ?_⟩, by decide, ?_⟩
  · rw [← hasCapability_iff_standing [1, 2] _ 1 (by decide)]
    decide +kernel
  · rw [← hasCapability_iff_standing [1, 2] _ 2 (by decide)]
    decide +kernel

/-! ## Running out of ids -/

/-- Every usable slot holds a live capability. -/
def AllLive (k : Kernel) : Prop :=
  ∀ id, 0 < id → id < maxCapabilities → ∃ e, k.table.get id = some e ∧ e.valid = true

/-- No issued capability has been revoked. -/
def NoneRevoked (led : Ledger) : Prop := ∀ id v, .issue id v ∈ led → Standing led id v

/-- A grant is refused exactly when the ids have run out. -/
theorem Accounted.grant_eq_tableFull (h : Accounted k led) (task : TaskId) (capType : CapabilityType) :
    k.grant task capType = .error .tableFull ↔ maxCapabilities ≤ issues led + 1 := by
  rw [← h.count]
  simp only [Kernel.grant, h.tidy.allocate]
  by_cases hn : k.table.nextId < maxCapabilities
  · simp [hn]
  · simp [hn, Nat.le_of_not_lt hn]

/-- Once the ids have run out, the slots are all live exactly when nothing was revoked. -/
theorem Accounted.allLive_iff (h : Accounted k led)
    (hfull : maxCapabilities ≤ issues led + 1) : AllLive k ↔ NoneRevoked led := by
  rw [← h.count] at hfull
  constructor
  · intro hlive id v hv
    obtain ⟨hpos, hlt⟩ := h.issued id v hv
    obtain ⟨e, hget, -⟩ := hlive id hpos (hlt.trans_le h.tidy.le)
    obtain ⟨task, capType, -, hst⟩ := (h.entries id e).mp hget
    rwa [h.once id v _ hv hst.issued]
  · intro hnone id hpos hlt
    obtain ⟨⟨task, capType⟩, hv⟩ := h.gapless id hpos (hlt.trans_le hfull)
    refine ⟨.new capType task, ?_, rfl⟩
    exact (h.entries id _).mpr ⟨task, capType, rfl, hnone id _ hv⟩

/-- **A full table is a live table — until an id is wasted.**  After a sequence of calls, a refusal
    with `TableFull` means that every usable slot is live iff fewer than 4095 capabilities have been
    issued so far (then no grant is refused) or none of those issued has been revoked. -/
theorem grant_full_only_when_live_iff (tasks : List TaskId) (cs : List Call) : (∀ task capType,
      ((Kernel.boot tasks).run cs).grant task capType = .error .tableFull → AllLive ((Kernel.boot tasks).run cs)) ↔
    (issues ((Kernel.boot tasks).ledger cs) < maxCapabilities - 1 ∨ NoneRevoked ((Kernel.boot tasks).ledger cs)) := by
  have h := accounted tasks cs
  simp only [h.grant_eq_tableFull]
  by_cases hfull : maxCapabilities ≤ issues ((Kernel.boot tasks).ledger cs) + 1
  · have hnot : ¬ issues ((Kernel.boot tasks).ledger cs) < maxCapabilities - 1 := by omega
    simp only [hfull, h.allLive_iff hfull, hnot, false_or, true_imp_iff]
    exact ⟨fun hlive => hlive 0 .all, fun hnone _ _ => hnone⟩
  · have hlt : issues ((Kernel.boot tasks).ledger cs) < maxCapabilities - 1 := by omega
    simp [hfull, hlt]

/-- As many grants as there are ids leave none. -/
theorem nextId_run_grants (k : Kernel) (hk : Tidy k.table) (n : Nat)
    (hn : k.table.nextId + n ≤ maxCapabilities) (task : TaskId) (capType : CapabilityType) :
    Tidy (k.run (List.replicate n (.grant task capType))).table ∧
    (k.run (List.replicate n (.grant task capType))).table.nextId = k.table.nextId + n := by
  induction n generalizing k with
  | zero => exact ⟨hk, rfl⟩
  | succ n ih =>
    have hlt : k.table.nextId < maxCapabilities := by omega
    have hstep : (k.step (.grant task capType)).table =
        k.table.fill ⟨k.table.nextId, hlt⟩ (.new capType task) := by
      simp [Kernel.step, Kernel.grant, hk.allocate, hlt, Kernel.pushCapability]
    have hnext : (k.step (.grant task capType)).table.nextId = k.table.nextId + 1 := by
      rw [hstep]
      rfl
    obtain ⟨htidy, hid⟩ := ih (k.step (.grant task capType)) (by rw [hstep]; exact hk.fill hlt _)
      (by omega)
    refine ⟨htidy, ?_⟩
    rw [hnext] at hid
    exact hid.trans (by omega)

/-- When the ids have run out, emptying a slot does not help. -/
theorem grant_after_revoke_full (hk : Tidy k.table)
    (hfull : k.table.nextId = maxCapabilities) (id : CapabilityId) (task : TaskId) (capType : CapabilityType) :
    (k.step (.revoke id)).grant task capType = .error .tableFull ∧ (k.step (.revoke id)).table.get id = none := by
  rw [step_revoke]
  refine ⟨?_, by simp⟩
  simp [Kernel.grant, (hk.drop id).allocate, hfull]

/-- 4095 grants and one revocation: slot 1 is empty and the next grant is refused. -/
theorem grant_full_with_free_slot :
    (((Kernel.boot [1]).run (List.replicate 4095 (.grant 1 .ipcReceive))).step (.revoke 1)).grant 1
      .ipcReceive = .error .tableFull ∧ (((Kernel.boot [1]).run (List.replicate 4095 (.grant 1 .ipcReceive))).step
      (.revoke 1)).table.get 1 = none := by
  have hn : (Kernel.boot [1]).table.nextId + 4095 = maxCapabilities := rfl
  revert hn
  generalize 4095 = n
  intro hn
  obtain ⟨htidy, hid⟩ := nextId_run_grants (.boot [1]) tidy_new n hn.le 1 .ipcReceive
  exact grant_after_revoke_full htidy (hid.trans hn) 1 1 .ipcReceive

end Folkering.Capability
