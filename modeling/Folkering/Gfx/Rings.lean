/-
  DRAINING — the rings of the apps, emptied once a frame.

  `drainAll` pops all that a ring holds and dispatches it as one display list.  The dispatcher leaves at the
  first `Sync`, and what the pop took after it is gone.  Pushes append whole lists, each ending in a
  `Sync`, so a ring always holds whole lists (`Whole`); a drain dispatches all of them exactly when there
  is at most one `Sync` among them.
-/
import Folkering.Gfx.Ring
import Folkering.Gfx.Dispatch

namespace Folkering.Gfx

open List

/-! ## The registry -/

/-- A registered ring, with the area that its app has painted so far. -/
structure Slot where
  ring : IpcGraphicsRing ringCapacityBytes
  lastDamage : Option Rect

/-- What one pass over the rings drew. -/
structure DrainStats where
  ringsDrained : Nat
  bytes : Nat
  drawRects : Nat
  drawTexts : Nat
  setClips : Nat
  drawTexturesSkipped : Nat
  unknownSkipped : Nat
  parseErrors : Nat
  lastParseError : Option ParseError
  damage : Option Rect
deriving Repr, DecidableEq

/-- Nothing drawn. -/
def DrainStats.zero : DrainStats := ⟨0, 0, 0, 0, 0, 0, 0, 0, none, none⟩

/-- Pops what a slot's ring holds and dispatches it: the slot after, and the bytes and outcome if there
    were any. -/
def drainSlot (scr : Screen) (font : Font) (s : Slot) : Slot × Option (Nat × Outcome) :=
  let (bytes, ring) := s.ring.popInto ringCapacityBytes
  if bytes.length = 0 then ({ s with ring }, none)
  else
    let o := dispatchDisplayList scr font bytes
    let lastDamage := match o.damage with
      | some r => extendDamage s.lastDamage r
      | none => s.lastDamage
    ({ ring, lastDamage }, some (bytes.length, o))

/-- One more ring. -/
def DrainStats.add (total : DrainStats) : Option (Nat × Outcome) → DrainStats
  | none => total
  | some (n, o) =>
    match o.result with
    | .ok (_, ds) =>
      { total with
        ringsDrained := total.ringsDrained + 1
        bytes := total.bytes + n
        drawRects := total.drawRects + ds.drawRects
        drawTexts := total.drawTexts + ds.drawTexts
        setClips := total.setClips + ds.setClips
        drawTexturesSkipped := total.drawTexturesSkipped + ds.drawTexturesSkipped
        unknownSkipped := total.unknownSkipped + ds.unknownSkipped
        damage := match ds.damage with
          | some r => extendDamage total.damage r
          | none => total.damage }
    | .error e => { total with parseErrors := total.parseErrors + 1, lastParseError := some e }

/-- The commands that a drain of a slot has run. -/
def drained : Option (Nat × Outcome) → List Command
  | none => []
  | some (_, o) => o.trace.map Prod.fst

/-- Drains every registered ring: the slots after, the totals, and the commands run for each slot. -/
def drainAll (scr : Screen) (font : Font) :
    List (Option Slot) → DrainStats → List (Option Slot) × DrainStats × List (List Command)
  | [], total => ([], total, [])
  | none :: slots, total =>
    let (slots, total, ran) := drainAll scr font slots total
    (none :: slots, total, [] :: ran)
  | some s :: slots, total =>
    let (s, out) := drainSlot scr font s
    let (slots, total, ran) := drainAll scr font slots (total.add out)
    (some s :: slots, total, drained out :: ran)

theorem drainAll_slot (scr : Screen) (font : Font) {slots : List (Option Slot)} {i : Nat} {s : Slot}
    (h : slots[i]? = some (some s)) (total : DrainStats) :
    (drainAll scr font slots total).1[i]? = some (some (drainSlot scr font s).1) ∧
    (drainAll scr font slots total).2.2[i]? = some (drained (drainSlot scr font s).2) := by
  induction slots generalizing i total with
  | nil => simp at h
  | cons slot slots ih =>
    cases i with
    | zero =>
      cases h
      exact ⟨rfl, rfl⟩
    | succ i =>
      cases slot with
      | none => exact ih h total
      | some s' => exact ih h _

/-! ## Whole lists in a ring -/

/-- The commands of the bytes, past every `Sync`. -/
def allCommandsFrom (bytes : List UInt8) : (fuel pos : Nat) → List Command
  | 0, _ => []
  | fuel + 1, pos =>
    match nextCommand bytes pos with
    | .ok (some (cmd, next)) => cmd :: allCommandsFrom bytes fuel next
    | _ => []

/-- The commands of a buffer. -/
def allCommands (bytes : List UInt8) : List Command := allCommandsFrom bytes bytes.length 0

variable {bytes : List UInt8} {cmds : List Command}

theorem allCommandsFrom_walks {fuel pos : Nat} (h : Walks bytes pos cmds) (hfuel : bytes.length - pos ≤ fuel) :
    allCommandsFrom bytes fuel pos = cmds := by
  induction h generalizing fuel with
  | done =>
    cases fuel with
    | zero => rfl
    | succ fuel => simp [allCommandsFrom, nextCommand]
  | @step pos next cmd cmds hnext _ ih =>
    have hbounds := nextCommand_bounds hnext
    obtain ⟨fuel, rfl⟩ : ∃ f, fuel = f + 1 := ⟨fuel - 1, by omega⟩
    rw [allCommandsFrom, hnext]
    simp only [ih (show bytes.length - next ≤ fuel by omega)]

theorem allCommands_walks (h : Walks bytes 0 cmds) : allCommands bytes = cmds := allCommandsFrom_walks h (by omega)

/-- A well-formed display list: whole records, of which the last is a `Sync`. -/
def WellFormed (bytes : List UInt8) : Prop := ∃ cmds, Walks bytes 0 (cmds ++ [.sync])

/-- Whole lists, one after the other, or nothing. -/
def Whole (bytes : List UInt8) : Prop := bytes = [] ∨ WellFormed bytes

theorem Whole.walks (h : Whole bytes) : Walks bytes 0 (allCommands bytes) := by
  rcases h with rfl | ⟨cmds, h⟩
  · exact .done
  · rw [allCommands_walks h]
    exact h

theorem Whole.append {as bs : List UInt8} (ha : Whole as) (hb : WellFormed bs) :
    Whole (as ++ bs) ∧ allCommands (as ++ bs) = allCommands as ++ allCommands bs := by
  obtain ⟨cmds, hcmds⟩ := hb
  have hwalks := ha.walks.append hcmds
  refine ⟨.inr ⟨allCommands as ++ cmds, by rwa [append_assoc]⟩, ?_⟩
  rw [allCommands_walks hwalks, allCommands_walks hcmds]

/-- What a drain runs of whole lists ends at the first `Sync`. -/
theorem commands_whole (h : Whole bytes) : (commands bytes).1 = upToSync (allCommands bytes) := by
  rw [commands_walks h.walks]

theorem upToSync_length (cmds : List Command) : (upToSync cmds).length ≤ cmds.length := by
  induction cmds with
  | nil => exact Nat.le_refl 0
  | cons cmd cmds ih =>
    cases cmd <;> simp only [upToSync, length_cons, length_nil] <;> omega

theorem upToSync_eq_of_length (h : (upToSync cmds).length = cmds.length) : upToSync cmds = cmds := by
  induction cmds with
  | nil => rfl
  | cons cmd cmds ih =>
    cases cmd with
    | sync =>
      rw [upToSync, length_singleton, length_cons] at h
      rw [length_eq_zero_iff.mp (Nat.succ.inj h.symm), upToSync]
    | setClipRect c => exact congrArg _ (ih (Nat.succ.inj h))
    | drawRect r => exact congrArg _ (ih (Nat.succ.inj h))
    | drawText x y color size text => exact congrArg _ (ih (Nat.succ.inj h))
    | drawTexture t => exact congrArg _ (ih (Nat.succ.inj h))
    | unknown op n => exact congrArg _ (ih (Nat.succ.inj h))

/-- Up to the first `Sync` is all of it, when the last is the only one. -/
theorem upToSync_eq_iff : upToSync (cmds ++ [Command.sync]) = cmds ++ [Command.sync] ↔
      (cmds ++ [Command.sync]).count Command.sync ≤ 1 := by
  induction cmds with
  | nil => decide
  | cons cmd cmds ih =>
    by_cases hc : cmd = .sync
    · subst hc
      have hpos : 0 < (cmds ++ [Command.sync]).count Command.sync := count_pos_iff.mpr (by simp)
      rw [cons_append, count_cons_self, upToSync]
      constructor
      · intro h
        have := congrArg List.length h
        simp at this
      · omega
    · have hne : upToSync (cmd :: (cmds ++ [Command.sync])) = cmd :: upToSync (cmds ++ [Command.sync]) := by
        cases cmd <;> first | rfl | exact absurd rfl hc
      rw [cons_append, hne, count_cons_of_ne hc, ← ih]
      simp

/-- A drain runs all of some whole lists exactly when they have at most one `Sync`. -/
theorem upToSync_whole (h : Whole bytes) :
    upToSync (allCommands bytes) = allCommands bytes ↔ (allCommands bytes).count Command.sync ≤ 1 := by
  rcases h with rfl | ⟨cmds, h⟩
  · decide
  · rw [allCommands_walks h]
    exact upToSync_eq_iff

/-! ## Runs -/

/-- A client pushes a display list into the ring of a slot, or the compositor drains the rings. -/
inductive Op where
  | push (slot : Nat) (list : List UInt8)
  | drain

/-- What is known of one slot: the lists accepted from its client and the commands run for it. -/
structure Log where
  accepted : List (List UInt8)
  dispatched : List Command

/-- One operation, with the log of slot `i`. -/
def exec (scr : Screen) (font : Font) (i : Nat) : List (Option Slot) × Log → Op → List (Option Slot) × Log
  | (slots, log), .push j list =>
    match slots[j]? with
    | some (some s) =>
      match s.ring.push list with
      | .ok ring =>
        (slots.set j (some { s with ring }),
          if j = i then { log with accepted := log.accepted ++ [list] } else log)
      | .error _ => (slots, log)
    | _ => (slots, log)
  | (slots, log), .drain =>
    let (slots, _, ran) := drainAll scr font slots .zero
    (slots, { log with dispatched := log.dispatched ++ ran.getD i [] })

/-- The bytes that wait in the ring of slot `i`. -/
def pending (i : Nat) (slots : List (Option Slot)) : List UInt8 :=
  match slots[i]? with
  | some (some s) => s.ring.contents
  | _ => []

/-- Slot `i` is registered and its ring holds whole lists. -/
def Serves (i : Nat) (slots : List (Option Slot)) : Prop :=
  ∃ s, slots[i]? = some (some s) ∧ s.ring.Fits ∧ Whole s.ring.contents

/-- The lists pushed into the ring of slot `i` are well-formed. -/
def PushesWellFormed (i : Nat) (ops : List Op) : Prop := ∀ list, .push i list ∈ ops → WellFormed list

/-- Every command of an accepted list has been run, once and in order, or still waits in the ring. -/
def NothingLost (i : Nat) (st : List (Option Slot) × Log) : Prop :=
  st.2.accepted.flatMap allCommands = st.2.dispatched ++ allCommands (pending i st.1)

/-- Whenever the rings are drained, at most one `Sync` waits in the ring of slot `i`. -/
def OneSyncPerDrain (scr : Screen) (font : Font) (i : Nat) : List (Option Slot) × Log → List Op → Prop
  | _, [] => True
  | st, op :: ops =>
    (op = .drain → (allCommands (pending i st.1)).count Command.sync ≤ 1) ∧
      OneSyncPerDrain scr font i (exec scr font i st op) ops

section

variable {scr : Screen} {font : Font} {i : Nat}

theorem ringCapacity_dvd : ringCapacityBytes ∣ 2 ^ 64 := by decide

/-- A drain of a slot with whole lists: it empties the ring and runs them up to the first `Sync`. -/
theorem drainSlot_whole {s : Slot} (hfits : s.ring.Fits) (hwhole : Whole s.ring.contents) :
    (drainSlot scr font s).1.ring.contents = [] ∧ (drainSlot scr font s).1.ring.Fits ∧
    drained (drainSlot scr font s).2 = upToSync (allCommands s.ring.contents) := by
  obtain ⟨hbytes, hrest, hfits'⟩ :=
    IpcGraphicsRing.popInto_contents ringCapacity_dvd hfits ringCapacityBytes
  have hlen : s.ring.contents.length ≤ ringCapacityBytes := by
    rw [IpcGraphicsRing.length_contents]
    exact hfits
  rw [take_of_length_le hlen] at hbytes
  rw [drop_eq_nil_of_le hlen] at hrest
  unfold drainSlot
  simp only [hbytes]
  split
  · rename_i hnone
    refine ⟨hrest, hfits', ?_⟩
    rw [length_eq_zero_iff.mp hnone]
    rfl
  · refine ⟨hrest, hfits', ?_⟩
    rw [← commands_whole hwhole]
    exact dispatchLoop_commands _ _ _

/-- A push is refused, or its data is in the ring. -/
theorem exec_push (slots : List (Option Slot)) (log : Log) (j : Nat) (list : List UInt8) :
    exec scr font i (slots, log) (.push j list) = (slots, log) ∨
    ∃ s ring, slots[j]? = some (some s) ∧ s.ring.push list = .ok ring ∧
      exec scr font i (slots, log) (.push j list) = (slots.set j (some { s with ring }),
        if j = i then { log with accepted := log.accepted ++ [list] } else log) := by
  simp only [exec]
  split
  · rename_i s hj
    split
    · rename_i ring hpush
      exact .inr ⟨s, ring, hj, hpush, rfl⟩
    · exact .inl rfl
  · exact .inl rfl

/-- What one operation does to slot `i`: nothing, an accepted push or a drain. -/
theorem exec_cases {slots : List (Option Slot)} (hs : Serves i slots) (log : Log) {op : Op}
    (hop : ∀ list, op = .push i list → WellFormed list) : Serves i (exec scr font i (slots, log) op).1 ∧
    ((op ≠ .drain ∧ pending i (exec scr font i (slots, log) op).1 = pending i slots ∧
        (exec scr font i (slots, log) op).2 = log) ∨
      (∃ list, op = .push i list ∧ pending i (exec scr font i (slots, log) op).1 = pending i slots ++ list ∧
        (exec scr font i (slots, log) op).2 = { log with accepted := log.accepted ++ [list] }) ∨
      (op = .drain ∧ pending i (exec scr font i (slots, log) op).1 = [] ∧
        (exec scr font i (slots, log) op).2 =
          { log with dispatched := log.dispatched ++ upToSync (allCommands (pending i slots)) })) := by
  obtain ⟨s, hslot, hfits, hwhole⟩ := hs
  have hpending : pending i slots = s.ring.contents := by simp [pending, hslot]
  cases op with
  | push j list =>
    rcases @exec_push scr font i slots log j list with hsame | ⟨s', ring, hj, hpush, hexec⟩
    · rw [hsame]
      exact ⟨⟨s, hslot, hfits, hwhole⟩, .inl ⟨by simp, rfl, rfl⟩⟩
    rw [hexec]
    by_cases hji : j = i
    · -- an accepted push into the ring
      subst hji
      rw [hslot] at hj
      cases hj
      obtain ⟨hcontents, hfits'⟩ := IpcGraphicsRing.push_contents ringCapacity_dvd (by decide) hpush
      have hnew : (slots.set j (some { s with ring := ring }))[j]? =
          some (some { s with ring := ring }) := by
        rw [getElem?_set_self (List.getElem?_eq_some_iff.mp hslot).1]
      have hpending' : pending j (slots.set j (some { s with ring := ring })) = ring.contents := by
        simp only [pending, hnew]
      refine ⟨⟨_, hnew, hfits', ?_⟩, .inr (.inl ⟨list, rfl, ?_, if_pos rfl⟩)⟩
      · rw [hcontents]
        exact (hwhole.append (hop list rfl)).1
      · rw [hpending', hpending, hcontents]
    · -- a push into another ring
      have hsame : (slots.set j (some { s' with ring := ring }))[i]? = some (some s) := by
        rw [getElem?_set_ne hji, hslot]
      have hpending' : pending i (slots.set j (some { s' with ring := ring })) = s.ring.contents := by
        simp only [pending, hsame]
      refine ⟨⟨s, hsame, hfits, hwhole⟩, .inl ⟨by simp, ?_, if_neg hji⟩⟩
      rw [hpending', hpending]
  | drain =>
    obtain ⟨hslot', hran⟩ := drainAll_slot scr font hslot .zero
    obtain ⟨hempty, hfits', hdrained⟩ := @drainSlot_whole scr font s hfits hwhole
    refine ⟨⟨_, hslot', hfits', .inl hempty⟩, .inr (.inr ⟨rfl, ?_, ?_⟩)⟩
    · simp only [exec, pending, hslot']
      exact hempty
    · simp only [exec, hpending, ← hdrained]
      rw [getD_eq_getElem?_getD, hran, Option.getD_some]

/-- With at most one `Sync` at each drain nothing is lost. -/
theorem nothingLost_run {st : List (Option Slot) × Log} {ops : List Op} (hs : Serves i st.1)
    (hops : PushesWellFormed i ops) (hlost : NothingLost i st) (hone : OneSyncPerDrain scr font i st ops) :
    NothingLost i (ops.foldl (exec scr font i) st) := by
  induction ops generalizing st with
  | nil => exact hlost
  | cons op ops ih =>
    obtain ⟨slots, log⟩ := st
    have hop : ∀ list, op = .push i list → WellFormed list := fun list h => hops list (by simp [h])
    obtain ⟨hs', hcases⟩ := @exec_cases scr font i slots hs log op hop
    refine ih hs' (fun list h => hops list (by simp [h])) ?_ hone.2
    obtain ⟨s, hslot, _, hwhole⟩ := hs
    have hpending : Whole (pending i slots) := by
      simp only [pending, hslot]
      exact hwhole
    unfold NothingLost at hlost ⊢
    rcases hcases with ⟨_, hp, hl⟩ | ⟨list, rfl, hp, hl⟩ | ⟨rfl, hp, hl⟩
    · rw [hp, hl]
      exact hlost
    · rw [hp, hl, (hpending.append (hop list rfl)).2]
      simp only [flatMap_append, flatMap_cons, flatMap_nil, append_nil]
      rw [hlost, append_assoc]
    · rw [hp, hl, (upToSync_whole hpending).mpr (hone.1 rfl)]
      simpa [allCommands, allCommandsFrom] using hlost

/-- How many commands are neither run nor waiting. -/
def deficit (i : Nat) (st : List (Option Slot) × Log) : Int :=
  (st.2.accepted.flatMap allCommands).length - st.2.dispatched.length -
    (allCommands (pending i st.1)).length

/-- The deficit never shrinks, and a drain with a second `Sync` in the ring makes it grow. -/
theorem deficit_run {st : List (Option Slot) × Log} {ops : List Op} (hs : Serves i st.1)
    (hops : PushesWellFormed i ops) : deficit i st ≤ deficit i (ops.foldl (exec scr font i) st) ∧
    (¬ OneSyncPerDrain scr font i st ops → deficit i st < deficit i (ops.foldl (exec scr font i) st)) := by
  induction ops generalizing st with
  | nil => exact ⟨Int.le_refl _, fun h => absurd trivial h⟩
  | cons op ops ih =>
    obtain ⟨slots, log⟩ := st
    have hop : ∀ list, op = .push i list → WellFormed list := fun list h => hops list (by simp [h])
    obtain ⟨hs', hcases⟩ := @exec_cases scr font i slots hs log op hop
    obtain ⟨hle, hlt⟩ := ih hs' fun list h => hops list (by simp [h])
    obtain ⟨s, hslot, _, hwhole⟩ := hs
    have hpending : Whole (pending i slots) := by
      simp only [pending, hslot]
      exact hwhole
    -- one operation: the deficit grows by what a drain drops
    have hstep : deficit i (slots, log) ≤ deficit i (exec scr font i (slots, log) op) ∧
        (¬ (op = .drain → (allCommands (pending i slots)).count Command.sync ≤ 1) →
          deficit i (slots, log) < deficit i (exec scr font i (slots, log) op)) := by
      unfold deficit
      rcases hcases with ⟨hne, hp, hl⟩ | ⟨list, rfl, hp, hl⟩ | ⟨rfl, hp, hl⟩
      · rw [hp, hl]
        exact ⟨Int.le_refl _, fun h => absurd (fun hd => absurd hd hne) h⟩
      · rw [hp, hl, (hpending.append (hop list rfl)).2]
        simp only [flatMap_append, length_append, flatMap_cons, flatMap_nil,
          append_nil]
        exact ⟨by omega, fun h => absurd (fun hd => nomatch hd) h⟩
      · rw [hp, hl]
        have hlen := upToSync_length (allCommands (pending i slots))
        have hnil : (allCommands []).length = 0 := rfl
        simp only [length_append, hnil]
        refine ⟨by omega, fun h => ?_⟩
        have hne : (upToSync (allCommands (pending i slots))).length ≠
            (allCommands (pending i slots)).length := by
          intro heq
          exact h fun _ => (upToSync_whole hpending).mp (upToSync_eq_of_length heq)
        omega
    constructor
    · exact le_trans hstep.1 hle
    · intro hnot
      by_cases hhead : op = .drain → (allCommands (pending i slots)).count Command.sync ≤ 1
      · exact lt_of_le_of_lt hstep.1 (hlt fun htail => hnot ⟨hhead, htail⟩)
      · exact lt_of_lt_of_le (hstep.2 hhead) hle

end

/-- From an empty ring, every command of every accepted list is run once and in order exactly when no
    drain finds a second `Sync` in the ring. -/
theorem drain_loses_nothing_iff (scr : Screen) (font : Font) {i : Nat} {slots : List (Option Slot)} {s : Slot}
    (hslot : slots[i]? = some (some s)) (hfits : s.ring.Fits) (hempty : s.ring.contents = [])
    {ops : List Op} (hops : PushesWellFormed i ops) : NothingLost i (ops.foldl (exec scr font i) (slots, ⟨[], []⟩)) ↔
      OneSyncPerDrain scr font i (slots, ⟨[], []⟩) ops := by
  have hs : Serves i slots := ⟨s, hslot, hfits, .inl hempty⟩
  have hpending : pending i slots = [] := by
    simp only [pending, hslot]
    exact hempty
  constructor
  · intro hlost
    by_contra hnot
    have hgrows := (@deficit_run scr font i (slots, ⟨[], []⟩) ops hs hops).2 hnot
    have hzero : deficit i (ops.foldl (exec scr font i) (slots, ⟨[], []⟩)) = 0 := by
      unfold deficit
      rw [hlost, length_append]
      omega
    have hstart : deficit i (slots, ⟨[], []⟩) = 0 := by
      simp only [deficit, hpending]
      rfl
    omega
  · intro hone
    refine nothingLost_run hs hops ?_ hone
    simp only [NothingLost, hpending]
    rfl

/-- A frame of one white pixel at the origin. -/
def onePixelFrame : List UInt8 :=
  [2, 22, 0, 0, 0, 0, 0, 0, 0, 0, 0, 1, 0, 0, 0, 1, 0, 0, 0, 255, 255, 255, 255, 0, 0, 0, 0, 0]

/-- A white pixel. -/
def onePixel : Command := .drawRect ⟨0, 0, 1, 1, 0xFFFFFFFF, 0⟩

theorem wellFormed_onePixelFrame : WellFormed onePixelFrame := by
  refine ⟨[onePixel], ?_⟩
  have hrect : nextCommand onePixelFrame 0 = .ok (some (onePixel, 25)) := by decide +kernel
  have hsync : nextCommand onePixelFrame 25 = .ok (some (.sync, 28)) := by decide +kernel
  exact .step hrect (.step hsync .done)

/-- One registered ring, on a screen of 8 by 8 with a blank font. -/
def oneRing : List (Option Slot) := [some ⟨.new ringCapacityBytes, none⟩]

/-- Eight by eight pixels. -/
def tinyScreen : Screen := ⟨8, 8, by decide, by decide⟩

/-- A font without ink. -/
def blankFont : Font := fun _ _ _ => false

theorem drain_loses_nothing_two_frames :
    NothingLost 0 ([.push 0 onePixelFrame, .drain, .push 0 onePixelFrame, .drain].foldl
      (exec tinyScreen blankFont 0) (oneRing, ⟨[], []⟩)) := by
  refine (@drain_loses_nothing_iff tinyScreen blankFont 0 oneRing ⟨.new ringCapacityBytes, none⟩ rfl
    (Nat.zero_le _) (IpcGraphicsRing.contents_new _) _ ?_).mpr ?_
  · intro list h
    obtain rfl : list = onePixelFrame := by simpa using h
    exact wellFormed_onePixelFrame
  · refine ⟨nofun, fun _ => ?_, nofun, fun _ => ?_, trivial⟩ <;> decide +kernel

/-- Two frames pushed before a drain: the second is taken out of the ring and never run. -/
theorem second_frame_is_lost :
    let st := [.push 0 onePixelFrame, .push 0 onePixelFrame, .drain].foldl (exec tinyScreen blankFont 0)
      (oneRing, ⟨[], []⟩)
    st.2.accepted = [onePixelFrame, onePixelFrame] ∧ st.2.dispatched = [onePixel, .sync] ∧
    pending 0 st.1 = [] ∧ ¬ NothingLost 0 st := by
  refine ⟨by decide +kernel, by decide +kernel, by decide +kernel, ?_⟩
  unfold NothingLost
  decide +kernel

end Folkering.Gfx
