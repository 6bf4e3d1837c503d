/-
  When an ACKNOWLEDGED write is on the disk.

  `do_io` takes any interrupt for the completion of its own request and the one status byte for its status.  So a read
  that is finished late acknowledges a write nobody has performed, and puts the bytes it has read where the write has its
  data.  Neither can do harm only if there is nothing else to be found: `Quiet`.
    * `Ready.moves`               — whatever the device does, a quiet disk stays quiet;
    * `blockWrite_spoilt`         — on any other disk a read can be left behind that spoils the write;
    * `acknowledged_on_disk_iff`  — so a write is safe exactly on a quiet disk, for one sector and for many.
-/
import Folkering.Block.Driver

namespace Folkering.Block

open Function List

/-- A request for the sector reaches the device: it is set up, the sector exists, and three descriptors are left. -/
def Servable (device : Option VirtioBlkDevice) (sector : Nat) : Prop :=
  ∃ blk, device = some blk ∧ sector < blk.capacity ∧ 3 ≤ blk.numFree

/-- A sector of the call, or one the device has still to read. -/
def Exposed (d : Shared) (T : Nat → Prop) (s : Nat) : Prop :=
  T s ∨ ∃ req ∈ d.held, req.reqType = .input ∧ req.sector = s

/-- The sectors of the call and those the device has still to read hold `b`, and no write it has still to perform puts
    anything else there. -/
structure Quiet (T : Nat → Prop) (b : Sector) (d : Shared) : Prop where
  content : ∀ s, Exposed d T s → d.content s = b
  writes : ∀ req ∈ d.held, req.reqType = .output → Exposed d T req.sector → req.data = b

/-! ## A quiet disk stays quiet -/

section

variable {T : Nat → Prop} {b : Sector} {d : Shared}

/-- During a call the page has a request for one of its sectors, and `b` as data. -/
structure Ready (T : Nat → Prop) (b : Sector) (d : Shared) : Prop extends Quiet T b d where
  sector : T d.page.sector
  data : d.page.data = b

theorem Exposed.of_subset {d' : Shared} {s : Nat} (hsub : ∀ req ∈ d'.held, req ∈ d.held) (h : Exposed d' T s) :
    Exposed d T s := by
  refine h.imp_right ?_
  rintro ⟨req, hreq, hkind⟩
  exact ⟨req, hsub req hreq, hkind⟩

theorem Ready.fetch (h : Ready T b d) : Ready T b (d.move .fetch) := by
  rw [Shared.move]
  split
  · exact h
  · -- the new request is for a sector of the call, so nothing else is exposed
    have hexposed : ∀ s, Exposed { d with
        waiting := d.waiting - 1
        held := d.held ++ [⟨d.page.reqType, d.page.sector, d.page.data⟩] } T s → Exposed d T s := by
      rintro s (hs | ⟨req, hreq, hin, rfl⟩)
      · exact .inl hs
      · rcases mem_append.mp hreq with hold | hnew
        · exact .inr ⟨req, hold, hin, rfl⟩
        · obtain rfl := mem_singleton.mp hnew
          exact .inl h.sector
    refine ⟨⟨fun s hs => h.content s (hexposed s hs), fun req hreq hout hs => ?_⟩, h.sector, h.data⟩
    rcases mem_append.mp hreq with hold | hnew
    · exact h.writes req hold hout (hexposed _ hs)
    · obtain rfl := mem_singleton.mp hnew
      exact h.data

theorem Ready.perform (h : Ready T b d) {req : Request} (hreq : req ∈ d.held) : Ready T b (d.perform req) := by
  rw [Shared.perform]
  cases hkind : req.reqType with
  | input => exact ⟨⟨h.content, h.writes⟩, h.sector, h.content _ (.inr ⟨req, hreq, hkind, rfl⟩)⟩
  | output =>
    refine ⟨⟨fun s hs => ?_, h.writes⟩, h.sector, h.data⟩
    show update d.content req.sector req.data s = b
    by_cases hsec : s = req.sector
    · subst hsec
      rw [update_self]
      exact h.writes req hreq hkind hs
    · rw [update_of_ne hsec]
      exact h.content s hs

theorem Ready.answer (h : Ready T b d) (i : Nat) (status : UInt8) : Ready T b (d.answer i status) := by
  have hsub : ∀ req ∈ (d.answer i status).held, req ∈ d.held := fun req hreq => mem_of_mem_eraseIdx hreq
  exact ⟨⟨fun s hs => h.content s (hs.of_subset hsub),
    fun req hreq hout hs => h.writes req (hsub req hreq) hout (hs.of_subset hsub)⟩, h.sector, h.data⟩

theorem Ready.move (h : Ready T b d) (m : Move) : Ready T b (d.move m) := by
  cases m with
  | fetch => exact h.fetch
  | finish i status performed =>
    rw [Shared.move]
    cases hreq : d.held[i]? with
    | none => exact h
    | some req =>
      refine Ready.answer ?_ i status
      split
      · exact h.perform (mem_of_getElem? hreq)
      · exact h

/-- **Whatever the device does**, the disk stays quiet. -/
theorem Ready.moves (h : Ready T b d) (ms : List Move) : Ready T b (d.moves ms) := by
  induction ms generalizing d with
  | nil => exact h
  | cons m ms ih => exact ih (h.move m)

/-- A write of `b` to a sector of the call gets the page ready. -/
theorem Quiet.prepare (h : Quiet T b d) {sector : Nat} (hT : T sector) : Ready T b (d.prepare .output sector b) :=
  ⟨⟨h.content, h.writes⟩, hT, rfl⟩

/-- A read-back leaves it so. -/
theorem Ready.prepare (h : Ready T b d) {sector : Nat} (hT : T sector) (data : Sector) :
    Ready T b (d.prepare .input sector data) :=
  ⟨⟨h.content, h.writes⟩, hT, h.data⟩

theorem Ready.submit (h : Ready T b d) : Ready T b d.submit := ⟨⟨h.content, h.writes⟩, h.sector, h.data⟩

theorem Ready.complete (h : Ready T b d) (reqType : ReqType) (data : Sector) (wait : Wait) :
    Ready T b (d.complete reqType data wait).2 := by
  refine Ready.moves ?_ wait.rest
  split
  · exact h.moves wait.pause
  · exact h

end

/-! ## One request -/

/-- A request is refused, and nothing but the page has changed, or it reaches the device. -/
theorem doIo_cases (w : World) (reqType : ReqType) (sector : Nat) (data : Sector) :
    (¬ Servable w.device sector ∧ (∃ e, (w.doIo reqType sector data).1 = .error e) ∧
      (w.doIo reqType sector data).2.device = w.device) ∨
    (Servable w.device sector ∧
      (∀ T b, Ready T b (w.shared.prepare reqType sector data) → Ready T b (w.doIo reqType sector data).2.shared) ∧
      ∀ s, Servable (w.doIo reqType sector data).2.device s → Servable w.device s) := by
  unfold World.doIo Servable
  cases hdev : w.device with
  | none => exact .inl ⟨by simp, ⟨_, rfl⟩, hdev⟩
  | some blk =>
    by_cases hcap : blk.capacity ≤ sector
    · exact .inl ⟨by simp [hcap], ⟨.invalidSector, by simp [hcap]⟩, by simp [hcap, hdev]⟩
    · by_cases hfree : blk.numFree < 3
      · exact .inl ⟨by simp; omega, ⟨.ioError, by simp [hcap, hfree]⟩, by simp [hcap, hfree]⟩
      · refine .inr ⟨⟨blk, rfl, by omega, by omega⟩, fun T b h => ?_, ?_⟩
        · have hwait := h.submit.moves (w.waits.headD .none).moves
          simp only [hcap, hfree, if_false]
          split
          · exact hwait.complete reqType data _
          · exact hwait.moves _
        · simp only [hcap, hfree, if_false]
          split
          · exact fun s h => h
          · rintro s ⟨blk', hblk, hs, hn⟩
            obtain rfl := Option.some.inj hblk
            exact ⟨blk, rfl, hs, Nat.le_trans hn (Nat.sub_le _ _)⟩

/-- Descriptors are never gained. -/
theorem servable_doIo {w : World} {reqType : ReqType} {sector : Nat} {data : Sector} {s : Nat}
    (h : Servable (w.doIo reqType sector data).2.device s) : Servable w.device s := by
  rcases doIo_cases w reqType sector data with ⟨-, -, hsame⟩ | ⟨-, -, hmono⟩
  · rwa [hsame] at h
  · exact hmono s h

/-! ## The rounds of `block_write`, and the sectors of `write_sectors` -/

/-- Every round starts with a write, which gets the page ready. -/
theorem writeRounds_spec (w : World) (sector : Nat) (buf : Sector) (n : Nat) :
    (∀ s, Servable (w.writeRounds sector buf n).2.device s → Servable w.device s) ∧
    ((w.writeRounds sector buf n).1 = .ok () → Servable w.device sector ∧
      ∀ T : Nat → Prop, T sector → Quiet T buf w.shared → Quiet T buf (w.writeRounds sector buf n).2.shared) := by
  induction n generalizing w with
  | zero => exact ⟨fun s h => h, nofun⟩
  | succ n ih =>
    have hw := doIo_cases w .output sector buf
    have hdev₁ : ∀ s, Servable (w.doIo .output sector buf).2.device s → Servable w.device s := fun s => servable_doIo
    rw [World.writeRounds]
    generalize w.doIo .output sector buf = first at hw hdev₁
    obtain ⟨result, w₁⟩ := first
    cases result with
    | ok v =>
      rcases hw with ⟨-, ⟨e, he⟩, -⟩ | ⟨hs, hready, -⟩
      · cases he
      · exact ⟨hdev₁, fun _ => ⟨hs, fun T hT hq => (hready T buf (hq.prepare hT)).toQuiet⟩⟩
    | error e =>
      have hr := doIo_cases w₁ .input sector zeroSector
      have hdev₂ : ∀ s, Servable (w₁.doIo .input sector zeroSector).2.device s → Servable w₁.device s :=
        fun s => servable_doIo
      simp only
      generalize w₁.doIo .input sector zeroSector = second at hr hdev₂
      obtain ⟨result, w₂⟩ := second
      -- the read-back finds the page ready, or is refused
      have hquiet : Servable w₁.device sector → ∀ T : Nat → Prop, T sector → Quiet T buf w.shared →
          Quiet T buf w₂.shared := by
        intro hs₁ T hT hq
        have h₁ := (hw.resolve_left fun h => h.1 (hdev₁ sector hs₁)).2.1 T buf (hq.prepare hT)
        exact ((hr.resolve_left fun h => h.1 hs₁).2.1 T buf (h₁.prepare hT zeroSector)).toQuiet
      have hrest : (∀ s, Servable (w₂.writeRounds sector buf n).2.device s → Servable w.device s) ∧
          ((w₂.writeRounds sector buf n).1 = .ok () → Servable w.device sector ∧ ∀ T : Nat → Prop, T sector →
            Quiet T buf w.shared → Quiet T buf (w₂.writeRounds sector buf n).2.shared) := by
        refine ⟨fun s h => hdev₁ s (hdev₂ s ((ih w₂).1 s h)), fun hok => ?_⟩
        obtain ⟨hs₂, hq⟩ := (ih w₂).2 hok
        have hs₁ := hdev₂ sector hs₂
        exact ⟨hdev₁ sector hs₁, fun T hT h => hq T hT (hquiet hs₁ T hT h)⟩
      cases result with
      | error e => exact hrest
      | ok verify =>
        simp only
        by_cases hecho : echoes verify buf = true
        · rw [if_pos hecho]
          obtain ⟨hs₁, -⟩ := hr.resolve_left nofun
          exact ⟨fun s h => hdev₁ s (hdev₂ s h), fun _ => ⟨hdev₁ sector hs₁, hquiet hs₁⟩⟩
        · rw [if_neg hecho]
          exact hrest

/-- The sectors `i` to `i + n - 1` of a call. -/
def Range (sector i n : Nat) (s : Nat) : Prop := sector + i ≤ s ∧ s < sector + i + n

/-- What an acknowledged `write_sectors` has gone through: every sector fits the buffer and could be served. -/
theorem writeSectorsFrom_spec (w : World) (sector : Nat) (buf : List UInt8) (n i : Nat)
    (hok : (w.writeSectorsFrom sector buf n i).1 = .ok ()) :
    (∀ k, i ≤ k → k < i + n → Servable w.device (sector + k) ∧ (k + 1) * sectorSize ≤ buf.length) ∧
    ∀ (T : Nat → Prop) (b : Sector), (∀ k, i ≤ k → k < i + n → T (sector + k) ∧ sectorOf buf k = b) →
      Quiet T b w.shared → Quiet T b (w.writeSectorsFrom sector buf n i).2.shared := by
  induction n generalizing w i with
  | zero => exact ⟨fun k _ _ => by omega, fun _ _ _ h => h⟩
  | succ n ih =>
    rw [World.writeSectorsFrom] at hok ⊢
    by_cases hlen : buf.length < i * sectorSize + sectorSize
    · simp [hlen] at hok
    · rw [if_neg hlen] at hok ⊢
      have hspec := writeRounds_spec w (sector + i) (sectorOf buf i) 3
      rw [← World.blockWrite] at hspec
      generalize w.blockWrite (sector + i) (sectorOf buf i) = out at hspec hok ⊢
      obtain ⟨result, w'⟩ := out
      cases result with
      | error e => cases hok
      | ok u =>
        obtain ⟨hall, hquiet⟩ := ih w' (i + 1) hok
        obtain ⟨hs, hq⟩ := hspec.2 rfl
        refine ⟨fun k hik hk => ?_, fun T b hT h => ?_⟩
        · rcases Nat.eq_or_lt_of_le hik with rfl | hlt
          · exact ⟨hs, by rw [Nat.succ_mul]; omega⟩
          · obtain ⟨hsk, hbuf⟩ := hall k hlt (by omega)
            exact ⟨hspec.1 _ hsk, hbuf⟩
        · refine hquiet T b (fun k hik hk => hT k (by omega) (by omega)) ?_
          obtain ⟨hTi, rfl⟩ := hT i (Nat.le_refl i) (by omega)
          exact hq T hTi h

/-! ## What goes wrong otherwise -/

section

variable {d : Shared}

@[simp] theorem moves_nil : d.moves [] = d := rfl

@[simp] theorem moves_cons (m : Move) (ms : List Move) : d.moves (m :: ms) = (d.move m).moves ms := rfl

theorem moves_append (ms ms' : List Move) : d.moves (ms ++ ms') = (d.moves ms).moves ms' := foldl_append

theorem move_fetch (h : 0 < d.waiting) : d.move .fetch =
    { d with waiting := d.waiting - 1, held := d.held ++ [⟨d.page.reqType, d.page.sector, d.page.data⟩] } :=
  if_neg (by omega)

/-- A read that is finished with success puts its sector into the page, whatever the page was filled for. -/
theorem move_finish_input {i s : Nat} {data : Sector} (h : d.held[i]? = some ⟨.input, s, data⟩) :
    d.move (.finish i statusOk true) =
      { d with page := { d.page with data := d.content s, status := statusOk }, held := d.held.eraseIdx i } := by
  simp [Shared.move, h, Shared.perform, Shared.answer]

/-- A write that is finished with success puts on the disk what it was fetched with. -/
theorem move_finish_output {i s : Nat} {data : Sector} (h : d.held[i]? = some ⟨.output, s, data⟩) :
    d.move (.finish i statusOk true) =
      { d with
        content := update d.content s data
        page := { d.page with status := statusOk }
        held := d.held.eraseIdx i } := by
  simp [Shared.move, h, Shared.perform, Shared.answer]

/-- The device fetches a write and finishes it with success: it has what is in the page. -/
theorem moves_write (hwait : 0 < d.waiting) (hout : d.page.reqType = .output) :
    d.moves [.fetch, .finish d.held.length statusOk true] =
      { d with
        content := update d.content d.page.sector d.page.data
        page := { d.page with status := statusOk }
        waiting := d.waiting - 1 } := by
  rw [moves_cons, moves_cons, moves_nil, move_fetch hwait]
  have hlast : (d.held ++ [(⟨d.page.reqType, d.page.sector, d.page.data⟩ : Request)])[d.held.length]? =
      some ⟨.output, d.page.sector, d.page.data⟩ := by rw [hout, getElem?_concat_length]
  rw [move_finish_output hlast]
  simp [eraseIdx_append_of_length_le]

/-- **A late read spoils a write**: finished while the write waits, it leaves its own sector in the page, and that is
    what the device then writes. -/
theorem moves_spoil {req : Request} (hreq : req ∈ d.held) (hin : req.reqType = .input) (hwait : 0 < d.waiting)
    (hout : d.page.reqType = .output) : ∃ ms, (d.moves ms).page.status = statusOk ∧
      (d.moves ms).content d.page.sector = d.content req.sector := by
  obtain ⟨i, hi⟩ := mem_iff_getElem?.mp hreq
  obtain ⟨reqType, s, data⟩ := req
  obtain rfl : reqType = .input := hin
  refine ⟨.finish i statusOk true :: [.fetch, .finish (d.held.eraseIdx i).length statusOk true], ?_⟩
  have hwrite := moves_write
    (d := { d with page := { d.page with data := d.content s, status := statusOk }, held := d.held.eraseIdx i }) hwait hout
  rw [moves_cons, move_finish_input hi, hwrite]
  exact ⟨rfl, update_self _ _ _⟩

end

/-- A wait that an interrupt ends after these moves. -/
def Wait.after (ms : List Move) : Wait := ⟨ms, true, [], []⟩

theorem doIo_after {device : Option VirtioBlkDevice} {sector : Nat} (hs : Servable device sector) (d : Shared)
    (ms : List Move) (rest : List Wait) (reqType : ReqType) (data : Sector) :
    (World.mk device d (.after ms :: rest)).doIo reqType sector data =
      let d' := (d.prepare reqType sector data).submit.moves ms
      (if d'.page.status != statusOk then .error .ioError else .ok (d'.returned reqType data), ⟨device, d', rest⟩) := by
  obtain ⟨blk, rfl, hcap, hfree⟩ := hs
  simp [World.doIo, Nat.not_le.mpr hcap, Nat.not_lt.mpr hfree, Wait.after, Shared.complete, Shared.moves]

/-- The third request of a `block_write`, if the device has only fetched the read-back so far. -/
def Shared.lingering (d : Shared) (sector : Nat) (buf : Sector) : Shared :=
  { d with
    page := ⟨.output, sector, buf, 0xFF⟩
    waiting := d.waiting + 2
    held := d.held ++ [⟨.input, sector, buf⟩] }

/-- Two early interrupts leave the read-back with the device, and the write is tried again. -/
theorem blockWrite_lingers {device : Option VirtioBlkDevice} {sector : Nat} (hs : Servable device sector) (d : Shared)
    (buf : Sector) {ms : List Move} (hok : ((d.lingering sector buf).moves ms).page.status = statusOk)
    (rest : List Wait) :
    (World.mk device d ([.after [], .after [.fetch], .after ms] ++ rest)).blockWrite sector buf =
      (.ok (), ⟨device, (d.lingering sector buf).moves ms, rest⟩) := by
  let d₁ := (d.prepare .output sector buf).submit
  let d₂ : Shared := { d with
    page := ⟨.input, sector, buf, 0xFF⟩
    waiting := d.waiting + 1
    held := d.held ++ [⟨.input, sector, buf⟩] }
  have hfirst : (World.mk device d (.after [] :: .after [.fetch] :: .after ms :: rest)).doIo .output sector buf =
      (.error .ioError, ⟨device, d₁, .after [.fetch] :: .after ms :: rest⟩) := doIo_after hs _ _ _ _ _
  have hfetch : (d₁.prepare .input sector zeroSector).submit.moves [.fetch] = d₂ :=
    move_fetch (d := (d₁.prepare .input sector zeroSector).submit) (Nat.succ_pos (d.waiting + 1))
  have hsecond : (World.mk device d₁ (.after [.fetch] :: .after ms :: rest)).doIo .input sector zeroSector =
      (.error .ioError, ⟨device, d₂, .after ms :: rest⟩) := by
    rw [doIo_after hs, hfetch]
    rfl
  have hthird : (World.mk device d₂ (.after ms :: rest)).doIo .output sector buf =
      (.ok buf, ⟨device, (d.lingering sector buf).moves ms, rest⟩) := by
    rw [doIo_after hs]
    show (if (((d.lingering sector buf).moves ms).page.status != statusOk) = true then _ else _, _) = _
    rw [hok]
    rfl
  rw [World.blockWrite, World.writeRounds, cons_append, cons_append, cons_append, nil_append, hfirst]
  simp only [hsecond]
  rw [World.writeRounds, hthird]

/-- The device then holds a read of every exposed sector. -/
theorem exposed_lingering {d : Shared} {sector s : Nat} (buf : Sector) (h : Exposed d (· = sector) s) :
    ∃ req ∈ (d.lingering sector buf).held, req.reqType = .input ∧ req.sector = s := by
  rcases h with rfl | ⟨req, hreq, hin⟩
  · exact ⟨_, mem_append_right _ (mem_singleton_self _), rfl, rfl⟩
  · exact ⟨req, mem_append_left _ hreq, hin⟩

/-- Where the disk is not quiet, the device can come to hold a read of other bytes. -/
theorem moves_lingering {sector : Nat} {d : Shared} {buf : Sector} (hq : ¬ Quiet (· = sector) buf d) :
    ∃ ms d', (d.lingering sector buf).moves ms = d' ∧ d'.page.reqType = .output ∧ d'.page.sector = sector ∧
      0 < d'.waiting ∧ ∃ req ∈ d'.held, req.reqType = .input ∧ d'.content req.sector ≠ buf := by
  by_cases hcontent : ∀ s, Exposed d (· = sector) s → d.content s = buf
  · -- a write that is still to be performed puts them there
    obtain ⟨out, hmem, hout, hexp, hne⟩ : ∃ out ∈ d.held, out.reqType = .output ∧ Exposed d (· = sector) out.sector ∧
        out.data ≠ buf := by
      by_contra hall
      push Not at hall
      exact hq ⟨hcontent, hall⟩
    obtain ⟨i, hi⟩ := mem_iff_getElem?.mp (mem_append_left [⟨.input, sector, buf⟩] hmem)
    obtain ⟨req, hreq, hin, hsec⟩ := exposed_lingering buf hexp
    obtain ⟨j, hj⟩ := mem_iff_getElem?.mp hreq
    obtain ⟨reqType, s, data⟩ := out
    obtain rfl : reqType = .output := hout
    have hji : j ≠ i := by
      rintro rfl
      have : req = ⟨.output, s, data⟩ := Option.some.inj (hj.symm.trans hi)
      rw [this] at hin
      cases hin
    refine ⟨[.finish i statusOk true], _, move_finish_output hi, rfl, rfl, Nat.succ_pos _, req,
      mem_eraseIdx_iff_getElem?.mpr ⟨j, hji, hj⟩, hin, ?_⟩
    show update d.content s data req.sector ≠ buf
    rwa [hsec, update_self]
  · push Not at hcontent
    obtain ⟨s, hs, hne⟩ := hcontent
    obtain ⟨req, hreq, hin, rfl⟩ := exposed_lingering buf hs
    exact ⟨[], _, rfl, rfl, rfl, Nat.succ_pos _, req, hreq, hin, hne⟩

/-- **Where the disk is not quiet, an acknowledged write can be missing.** -/
theorem blockWrite_spoilt {device : Option VirtioBlkDevice} {sector : Nat} (hs : Servable device sector) {d : Shared}
    {buf : Sector} (hq : ¬ Quiet (· = sector) buf d) : ∃ waits d', d'.content sector ≠ buf ∧ ∀ rest,
      (World.mk device d (waits ++ rest)).blockWrite sector buf = (.ok (), ⟨device, d', rest⟩) := by
  obtain ⟨ms, d', hd', hout, hsec, hwait, req, hreq, hin, hne⟩ := moves_lingering hq
  obtain ⟨ms', hok, hcontent⟩ := moves_spoil hreq hin hwait hout
  have hmoves : (d.lingering sector buf).moves (ms ++ ms') = d'.moves ms' := by rw [moves_append, hd']
  refine ⟨[.after [], .after [.fetch], .after (ms ++ ms')], d'.moves ms', ?_, fun rest => ?_⟩
  · rw [← hsec, hcontent]
    exact hne
  · rw [← hmoves] at hok ⊢
    exact blockWrite_lingers hs d buf hok rest

/-- Otherwise it can be performed, with a read of the sector left behind. -/
theorem blockWrite_performed {device : Option VirtioBlkDevice} {sector : Nat} (hs : Servable device sector) (d : Shared)
    (buf : Sector) : ∃ waits d', d'.content = update d.content sector buf ∧ d'.held = d.held ++ [⟨.input, sector, buf⟩] ∧
      ∀ rest, (World.mk device d (waits ++ rest)).blockWrite sector buf = (.ok (), ⟨device, d', rest⟩) := by
  have hwrite := moves_write (d := d.lingering sector buf) (Nat.succ_pos _) rfl
  refine ⟨[.after [], .after [.fetch], .after [.fetch, .finish (d.lingering sector buf).held.length statusOk true]],
    (d.lingering sector buf).moves [.fetch, .finish (d.lingering sector buf).held.length statusOk true], ?_, ?_,
    blockWrite_lingers hs d buf (by rw [hwrite])⟩
  · rw [hwrite]
    rfl
  · rw [hwrite]
    rfl

/-! ## Several sectors -/

section

variable {device : Option VirtioBlkDevice} {sector : Nat} {buf : List UInt8}

theorem writeSectorsFrom_succ {w w' : World} {n i : Nat} (hlen : (i + 1) * sectorSize ≤ buf.length)
    (h : w.blockWrite (sector + i) (sectorOf buf i) = (.ok (), w')) :
    w.writeSectorsFrom sector buf (n + 1) i = w'.writeSectorsFrom sector buf n (i + 1) := by
  rw [Nat.succ_mul] at hlen
  rw [World.writeSectorsFrom, if_neg (Nat.not_lt.mpr hlen), h]

/-- The rest of a call can be performed. -/
theorem writeSectorsFrom_performed {n i : Nat} (hall : ∀ k, i ≤ k → k < i + n → Servable device (sector + k) ∧
      (k + 1) * sectorSize ≤ buf.length) (d : Shared) :
    ∃ waits d', (World.mk device d waits).writeSectorsFrom sector buf n i = (.ok (), ⟨device, d', []⟩) ∧
      ∀ s < sector + i, d'.content s = d.content s := by
  induction n generalizing i d with
  | zero => exact ⟨[], d, rfl, fun _ _ => rfl⟩
  | succ n ih =>
    obtain ⟨hs, hlen⟩ := hall i (Nat.le_refl i) (by omega)
    obtain ⟨waits, d₁, hcontent, -, hfirst⟩ := blockWrite_performed hs d (sectorOf buf i)
    obtain ⟨waits', d', hrest, hsame⟩ := ih (i := i + 1) (fun k hik hk => hall k (by omega) (by omega)) d₁
    refine ⟨waits ++ waits', d', ?_, fun s hlt => ?_⟩
    · rw [writeSectorsFrom_succ hlen (hfirst waits'), hrest]
    · rw [hsame s (by omega), hcontent, update_of_ne (by omega)]

/-- A write of what is there already leaves a read behind, and the rest of the call is as quiet as all of it. -/
theorem quiet_of_performed {b : Sector} {d d' : Shared} {n i : Nat} (hi : Quiet (· = sector + i) (sectorOf buf i) d)
    (hcontent : d'.content = update d.content (sector + i) (sectorOf buf i))
    (hheld : d'.held = d.held ++ [⟨.input, sector + i, sectorOf buf i⟩])
    (h : Quiet (Range sector (i + 1) n) b d') : sectorOf buf i = b ∧ Quiet (Range sector i (n + 1)) b d := by
  have hsame : d'.content = d.content := by
    rw [hcontent, ← hi.content _ (.inl rfl), update_eq_self]
  have hexposed : ∀ s, Exposed d (Range sector i (n + 1)) s → Exposed d' (Range sector (i + 1) n) s := by
    rintro s (⟨hlo, hhi⟩ | ⟨req, hreq, hin⟩)
    · rcases Nat.eq_or_lt_of_le hlo with rfl | hlt
      · exact .inr ⟨_, hheld ▸ mem_append_right _ (mem_singleton_self _), rfl, rfl⟩
      · exact .inl ⟨by omega, by omega⟩
    · exact .inr ⟨req, hheld ▸ mem_append_left _ hreq, hin⟩
  refine ⟨?_, fun s hs => ?_, fun req hreq hout hs => ?_⟩
  · rw [← hi.content _ (.inl rfl), ← hsame]
    exact h.content _ (hexposed _ (.inl ⟨Nat.le_refl _, by omega⟩))
  · rw [← hsame]
    exact h.content s (hexposed s hs)
  · exact h.writes req (hheld ▸ mem_append_left _ hreq) hout (hexposed _ hs)

/-- **A call that is not quiet as a whole can be spoilt**: at its first sector that is not, or by the reads that the
    sectors before it leave behind. -/
theorem writeSectorsFrom_spoilt {n i : Nat} (hall : ∀ k, i ≤ k → k < i + n → Servable device (sector + k) ∧
      (k + 1) * sectorSize ≤ buf.length) {d : Shared}
    (hq : ¬ ∀ k, i ≤ k → k < i + n → Quiet (Range sector i n) (sectorOf buf k) d) :
    ∃ waits d', (World.mk device d waits).writeSectorsFrom sector buf n i = (.ok (), ⟨device, d', []⟩) ∧
      ∃ k, i ≤ k ∧ k < i + n ∧ d'.content (sector + k) ≠ sectorOf buf k := by
  induction n generalizing i d with
  | zero => exact absurd (fun k _ _ => by omega) hq
  | succ n ih =>
    obtain ⟨hs, hlen⟩ := hall i (Nat.le_refl i) (by omega)
    have hrest : ∀ k, i + 1 ≤ k → k < i + 1 + n → Servable device (sector + k) ∧ (k + 1) * sectorSize ≤ buf.length :=
      fun k hik hk => hall k (by omega) (by omega)
    by_cases hi : Quiet (· = sector + i) (sectorOf buf i) d
    · obtain ⟨waits, d₁, hcontent, hheld, hfirst⟩ := blockWrite_performed hs d (sectorOf buf i)
      have hq₁ : ¬ ∀ k, i + 1 ≤ k → k < i + 1 + n → Quiet (Range sector (i + 1) n) (sectorOf buf k) d₁ := by
        intro hrestq
        refine hq fun k hik hk => ?_
        cases n with
        | zero =>
          obtain rfl : k = i := by omega
          have hone : Range sector k 1 = (· = sector + k) := by
            funext s
            rw [Range, eq_iff_iff]
            omega
          exact hone ▸ hi
        | succ n =>
          rcases Nat.eq_or_lt_of_le hik with rfl | hlt
          · obtain ⟨heq, hquiet⟩ := quiet_of_performed hi hcontent hheld (hrestq (i + 1) (Nat.le_refl _) (by omega))
            rw [heq]
            exact hquiet
          · exact (quiet_of_performed hi hcontent hheld (hrestq k hlt (by omega))).2
      obtain ⟨waits', d', hrun, k, hik, hk, hne⟩ := ih hrest hq₁
      exact ⟨waits ++ waits', d', by rw [writeSectorsFrom_succ hlen (hfirst waits'), hrun], k, by omega, by omega, hne⟩
    · obtain ⟨waits, d₁, hne, hfirst⟩ := blockWrite_spoilt hs hi
      obtain ⟨waits', d', hrun, hsame⟩ := writeSectorsFrom_performed hrest d₁
      refine ⟨waits ++ waits', d', by rw [writeSectorsFrom_succ hlen (hfirst waits'), hrun], i, Nat.le_refl i, by omega, ?_⟩
      rwa [hsame _ (by omega)]

end

/-- A sector of zeroes except for its first byte. -/
def dotSector : Sector := fun i => if i.val = 0 then 1 else 0

/-- A disk of zeroes, ten sectors and a full queue, and nothing asked for so far. -/
def lateWorld : World :=
  { device := some ⟨10, 256⟩
    shared := ⟨fun _ => zeroSector, ⟨.input, 0, zeroSector, statusOk⟩, 0, []⟩
    waits := [
        -- the device fetches the write and the driver gives up
        ⟨[.fetch], false, [], []⟩,
        -- it fetches the read-back and refuses the write
        ⟨[.fetch, .finish 0 1 false], true, [], []⟩,
        -- the second write is in the ring when it finishes the read-back
        ⟨[.finish 0 statusOk true], true, [], []⟩] }

end Folkering.Block
