/-
  The TRANSMIT PATH of the network driver (drivers/virtio_net/tx.rs): one page per packet.

  `transmit_packet_inner` first reaps: it pops completed descriptors, gives each one back and frees the page whose
  address is in it.  Then it takes a descriptor and a page and submits.  The device runs beside it: it takes descriptors
  from the available ring and completes them in any order, at any time.

  The queue is the one of the block driver (Block/Queue).  There the address word of a descriptor names a DMA area; here
  it is a page, so the address words are kept beside the queue (`addr`).  `allocated` and `freed` record what
  `alloc_page` returned and what `free_page` was called with.

  Two cursors of a ring are less than `queue_size` entries apart and wrap at 2^16, and each is reduced modulo
  `queue_size` where it is used.  Entries have cells of their own only if `queue_size` divides 2^16, and `Virtqueue::new`
  takes the device's size as it is.  `tx_pages_balanced`: with a power of two nothing is lost or freed twice.
  `tx_wrap_frees_twice`: with three descriptors, packet 65536 is lost and packet 65537 freed twice.
-/
import Folkering.Block.FreeList
import Folkering.Lib.Circular

namespace Folkering.Net

open Block Circular List Function Option

/-- The errors of the driver. -/
inductive NetError where
  | deviceNotFound
  | barNotIoSpace
  | deviceFailed
  | noMacFeature
  | queueSetupFailed
deriving Repr, DecidableEq

/-- The largest frame with its header. -/
def txBufSize : Nat := 2048
/-- The header in front of a frame. -/
def virtioNetHdrSize : Nat := 10

/-! ## Driver and device -/

/-- Where the driver is: between two calls, or reaping for a frame of the given length. -/
inductive Pc where
  | idle
  | draining (frameLen : Nat)
deriving Repr, DecidableEq

/-- The driver's transmit side, the device, and what was allocated and freed. -/
structure Tx where
  txQueue : Virtqueue
  /-- the `addr` words of the descriptors -/
  addr : Nat → Nat
  pc : Pc
  /-- the device's cursor in the available ring -/
  lastAvail : Nat
  /-- the descriptors the device has taken and not completed -/
  inflight : List Nat
  allocated : List Nat
  freed : List Nat

/-- The moves of driver and device. -/
inductive Act where
  /-- `transmit_packet_inner` is called with a frame of this length -/
  | call (frameLen : Nat)
  /-- one round of the reaping loop -/
  | reap
  /-- the rest of the call; `page` is what `alloc_page` returns if it is called -/
  | send (page : Option Nat)
  | devFetch
  | devComplete (i : Nat)
deriving Repr, DecidableEq

/-- A completed descriptor goes back, and its page. -/
def Tx.reap (s : Tx) (doneIdx : Nat) (q : Virtqueue) : Tx :=
  { s with
    txQueue := q.freeDesc doneIdx
    freed := if s.addr doneIdx = 0 then s.freed else s.addr doneIdx :: s.freed }

/-- The frame is in the page: fill in the descriptor and submit it. -/
def Tx.submit (s : Tx) (frameLen page descIdx : Nat) (q : Virtqueue) : Tx :=
  { s with
    txQueue := (q.setDesc descIdx ⟨none, virtioNetHdrSize + frameLen, false, false, 0⟩).submit descIdx
    addr := update s.addr descIdx page
    pc := .idle
    allocated := page :: s.allocated }

/-- The call after its reaping loop; `page` is what `alloc_page` returns. -/
def Tx.send (s : Tx) (frameLen : Nat) (page : Option Nat) (q : Virtqueue) : Tx × Except NetError Unit :=
  match q.allocDesc with
  | none => ({ s with pc := .idle, txQueue := q }, .error .deviceFailed)
  | some (descIdx, q) => match page with
    | none => ({ s with pc := .idle, txQueue := q.freeDesc descIdx }, .error .deviceFailed)
    | some page => (s.submit frameLen page descIdx q, .ok ())

/-- One action, and what the call returns if it returns. -/
def Tx.step (s : Tx) : Act → Option (Tx × Option (Except NetError Unit))
  | .call frameLen => match s.pc with
    | .idle =>
      if frameLen > txBufSize - virtioNetHdrSize then some (s, some (.error .deviceFailed))
      else some ({ s with pc := .draining frameLen }, none)
    | .draining _ => none
  | .reap => match s.pc, s.txQueue.popUsed with
    | .draining _, (some (doneIdx, _), q) => some (s.reap doneIdx q, none)
    | _, _ => none
  | .send page => match s.pc, s.txQueue.popUsed with
    | .draining frameLen, (none, q) => some ((s.send frameLen page q).1, some (s.send frameLen page q).2)
    | _, _ => none
  | .devFetch =>
    if s.lastAvail = s.txQueue.nextAvail then none
    else some ({ s with
      lastAvail := wrapSucc s.lastAvail
      inflight := s.inflight ++ [s.txQueue.availRing (s.lastAvail % s.txQueue.queueSize)] }, none)
  | .devComplete i => match s.inflight[i]? with
    | none => none
    | some d => some ({ s with
      inflight := s.inflight.eraseIdx i
      txQueue := { s.txQueue with
        usedRing := update s.txQueue.usedRing (s.txQueue.usedIdx % s.txQueue.queueSize) (d, 0)
        usedIdx := wrapSucc s.txQueue.usedIdx } }, none)

/-- The driver after its initialisation. -/
def Tx.init (queueSize : Nat) : Tx :=
  { txQueue := .new queueSize
    addr := fun _ => 0
    pc := .idle
    lastAvail := 0
    inflight := []
    allocated := []
    freed := [] }

/-! ## What is claimed, and when -/

/-- Submitted and not taken by the device. -/
def Tx.unfetched (s : Tx) : List Nat :=
  between s.txQueue.availRing (2 ^ 16) s.txQueue.queueSize s.lastAvail s.txQueue.nextAvail

/-- Completed and not reaped. -/
def Tx.unreaped (s : Tx) : List Nat :=
  (between s.txQueue.usedRing (2 ^ 16) s.txQueue.queueSize s.txQueue.lastUsedIdx s.txQueue.usedIdx).map (·.1)

/-- The descriptors in flight or completed and not reaped. -/
def Tx.outstanding (s : Tx) : List Nat := s.unfetched ++ s.inflight ++ s.unreaped

/-- Every page allocated has been freed as often as it was allocated, but for those of the outstanding descriptors;
    these are at most `queue_size`. -/
structure Balanced (s : Tx) : Prop where
  pages : s.allocated.Perm (s.freed ++ s.outstanding.map s.addr)
  bound : s.outstanding.length ≤ s.txQueue.queueSize

/-- `alloc_page` does not return page 0: no memory below 1 MiB is registered with it. -/
def Act.PageOk : Act → Prop
  | .send page => page ≠ some 0
  | _ => True

/-- The states reached from the initialised driver. -/
inductive Reach (queueSize : Nat) : Tx → Prop
  | init : Reach queueSize (.init queueSize)
  | act {s s' : Tx} {a : Act} {r : Option (Except NetError Unit)} : Reach queueSize s → a.PageOk →
      s.step a = some (s', r) → Reach queueSize s'

/-! ## The invariant -/

/-- The free list and the outstanding descriptors share out the queue, and the outstanding ones carry their pages. -/
structure Inv (n : Nat) (s : Tx) (l : List Nat) : Prop where
  size : s.txQueue.queueSize = n
  free : FreeList s.txQueue l
  shares : (l ++ s.outstanding).Perm (List.range n)
  pages : s.allocated.Perm (s.freed ++ s.outstanding.map s.addr)
  nonzero : ∀ d ∈ s.outstanding, s.addr d ≠ 0
  lastAvail : s.lastAvail < 2 ^ 16
  nextAvail : s.txQueue.nextAvail < 2 ^ 16
  lastUsed : s.txQueue.lastUsedIdx < 2 ^ 16
  used : s.txQueue.usedIdx < 2 ^ 16

theorem wrapSucc_lt (i : Nat) : wrapSucc i < 2 ^ 16 := Nat.mod_lt _ (Nat.two_pow_pos 16)

section

variable {n : Nat} {s : Tx} {l : List Nat}

theorem inv_init (hpos : 0 < n) (hn : n < 2 ^ 16) : Inv n (.init n) (List.range n) where
  size := rfl
  free := freeList_new hpos hn
  shares := by simp [Tx.outstanding, Tx.unfetched, Tx.unreaped, Tx.init, Virtqueue.new, between]
  pages := by simp [Tx.outstanding, Tx.unfetched, Tx.unreaped, Tx.init, Virtqueue.new, between]
  nonzero := by simp [Tx.outstanding, Tx.unfetched, Tx.unreaped, Tx.init, Virtqueue.new, between]
  lastAvail := Nat.two_pow_pos 16
  nextAvail := Nat.two_pow_pos 16
  lastUsed := Nat.two_pow_pos 16
  used := Nat.two_pow_pos 16

theorem Inv.length (h : Inv n s l) : l.length + s.outstanding.length = n := by
  have hlen := h.shares.length_eq
  rwa [length_append, length_range] at hlen

theorem Inv.balanced (h : Inv n s l) : Balanced s := by
  have hlen := h.length
  exact ⟨h.pages, by rw [h.size]; omega⟩

theorem Inv.nodup (h : Inv n s l) : (l ++ s.outstanding).Nodup := h.shares.nodup_iff.mpr nodup_range

theorem unfetched_congr {s s' : Tx} (hrings : s'.txQueue.rings = s.txQueue.rings) (hlast : s'.lastAvail = s.lastAvail) :
    s'.unfetched = s.unfetched := by
  simp only [Virtqueue.rings, Prod.mk.injEq] at hrings
  simp only [Tx.unfetched, hrings, hlast]

theorem unreaped_congr {s s' : Tx} (hsize : s'.txQueue.queueSize = s.txQueue.queueSize)
    (hused : (s'.txQueue.usedRing, s'.txQueue.usedIdx, s'.txQueue.lastUsedIdx) =
      (s.txQueue.usedRing, s.txQueue.usedIdx, s.txQueue.lastUsedIdx)) : s'.unreaped = s.unreaped := by
  simp only [Prod.mk.injEq] at hused
  simp only [Tx.unreaped, hused, hsize]

/-- The outstanding descriptors change their place. -/
theorem Inv.permute (h : Inv n s l) {s' : Tx} (hsize : s'.txQueue.queueSize = s.txQueue.queueSize)
    (hfree : FreeList s'.txQueue l) (hout : s'.outstanding.Perm s.outstanding) (haddr : s'.addr = s.addr)
    (hlog : (s'.allocated, s'.freed) = (s.allocated, s.freed)) (h₁ : s'.lastAvail < 2 ^ 16)
    (h₂ : s'.txQueue.nextAvail < 2 ^ 16) (h₃ : s'.txQueue.lastUsedIdx < 2 ^ 16) (h₄ : s'.txQueue.usedIdx < 2 ^ 16) :
    Inv n s' l := by
  obtain ⟨ha, hf⟩ := Prod.mk.inj hlog
  refine ⟨hsize.trans h.size, hfree, (hout.append_left l).trans h.shares, ?_, ?_, h₁, h₂, h₃, h₄⟩
  · rw [ha, hf, haddr]
    exact h.pages.trans ((hout.map s.addr).symm.append_left _)
  · intro d hd
    rw [haddr]
    exact h.nonzero d (hout.mem_iff.mp hd)

/-! ## Steps of the driver -/

/-- A descriptor is reaped: the oldest completion leaves the outstanding ones, with its page. -/
theorem Inv.reap (h : Inv n s l) (hn : n < 2 ^ 16) (hne : s.txQueue.usedIdx ≠ s.txQueue.lastUsedIdx) :
    Inv n (s.reap (s.txQueue.usedRing (s.txQueue.lastUsedIdx % s.txQueue.queueSize)).1
        { s.txQueue with lastUsedIdx := wrapSucc s.txQueue.lastUsedIdx })
      ((s.txQueue.usedRing (s.txQueue.lastUsedIdx % s.txQueue.queueSize)).1 :: l) := by
  generalize hd : (s.txQueue.usedRing (s.txQueue.lastUsedIdx % s.txQueue.queueSize)).1 = d
  generalize hs' : s.reap d { s.txQueue with lastUsedIdx := wrapSucc s.txQueue.lastUsedIdx } = s'
  have hout : s.outstanding.Perm (d :: s'.outstanding) := by
    have hpop : s.unreaped = d :: s'.unreaped := by
      rw [Tx.unreaped, between_pop _ _ h.used h.lastUsed hne.symm, map_cons, hd, ← hs']
      simp only [Tx.unreaped, Tx.reap, Virtqueue.freeDesc, Virtqueue.setDesc, wrapSucc]
    have hrest : s'.unfetched = s.unfetched ∧ s'.inflight = s.inflight := by
      rw [← hs']
      exact ⟨unfetched_congr rfl rfl, rfl⟩
    rw [Tx.outstanding, Tx.outstanding, hpop, hrest.1, hrest.2]
    exact perm_middle
  have hmem : d ∈ s.outstanding := hout.mem_iff.mpr mem_cons_self
  have hoff : d ∉ l := fun hl => (nodup_append.mp h.nodup).2.2 d hl d hmem rfl
  have hlt : d < n := mem_range.mp (h.shares.mem_iff.mp (mem_append_right l hmem))
  have haddr : s'.addr = s.addr := by
    rw [← hs']
    rfl
  have hlog : s'.allocated = s.allocated ∧ s'.freed = s.addr d :: s.freed := by
    rw [← hs']
    exact ⟨rfl, if_neg (h.nonzero d hmem)⟩
  have hfree : FreeList { s.txQueue with lastUsedIdx := wrapSucc s.txQueue.lastUsedIdx } l :=
    ⟨h.free.linked, h.free.nodup, h.free.count⟩
  constructor
  · rw [← hs']
    exact h.size
  · rw [← hs']
    exact freeDesc_list hfree hoff (by omega)
  · rw [cons_append]
    exact perm_middle.symm.trans ((hout.symm.append_left l).trans h.shares)
  · have hpages := (hout.map s.addr).append_left s.freed
    rw [map_cons] at hpages
    rw [hlog.1, hlog.2, haddr, cons_append]
    exact h.pages.trans (hpages.trans perm_middle)
  · intro x hx
    rw [haddr]
    exact h.nonzero x (hout.mem_iff.mpr (mem_cons_of_mem _ hx))
  · rw [← hs']
    exact h.lastAvail
  · rw [← hs']
    exact h.nextAvail
  · rw [← hs']
    exact wrapSucc_lt _
  · rw [← hs']
    exact h.used

/-- A packet is submitted: its descriptor was free, so there is room in the ring. -/
theorem Inv.submit {d page frameLen : Nat} {q : Virtqueue} (h : Inv n s (d :: l)) (hdvd : n ∣ 2 ^ 16) (hn : n < 2 ^ 16)
    (hfree : FreeList q l) (ht : Touches s.txQueue q []) (hpage : page ≠ 0) :
    Inv n (s.submit frameLen page d q) l := by
  have hnext : q.nextAvail = s.txQueue.nextAvail := congrArg (·.2.2) ht.rings
  have hring : q.availRing = s.txQueue.availRing := congrArg (·.2.1) ht.rings
  have hsize : q.queueSize = s.txQueue.queueSize := congrArg (·.1) ht.rings
  have hused : q.usedIdx = s.txQueue.usedIdx := congrArg (·.2.1) ht.used
  have hlast : q.lastUsedIdx = s.txQueue.lastUsedIdx := congrArg (·.2.2) ht.used
  generalize hs' : s.submit frameLen page d q = s'
  have hroom : lag (2 ^ 16) s.lastAvail s.txQueue.nextAvail < n := by
    have hlen := h.length
    simp only [Tx.outstanding, Tx.unfetched, length_append, length_cons, length_between] at hlen
    omega
  have hout : s'.outstanding.Perm (d :: s.outstanding) := by
    have hpush : s'.unfetched = s.unfetched ++ [d] := by
      have hpush := between_push s.txQueue.availRing d hdvd h.nextAvail h.lastAvail hroom hn
      rw [← h.size] at hpush
      rw [← hs']
      simp only [Tx.unfetched, Tx.submit, Virtqueue.submit, Virtqueue.setDesc, wrapSucc, hring, hnext, hsize]
      exact hpush
    have hrest : s'.inflight = s.inflight ∧ s'.unreaped = s.unreaped := by
      rw [← hs']
      exact ⟨rfl, unreaped_congr hsize ht.used⟩
    rw [Tx.outstanding, Tx.outstanding, hpush, hrest.1, hrest.2, append_assoc, append_assoc, append_assoc,
      singleton_append]
    exact perm_middle
  have hd : d ∉ s.outstanding := fun hmem => (nodup_append.mp h.nodup).2.2 d mem_cons_self d hmem rfl
  have haddr : ∀ x ∈ s.outstanding, s'.addr x = s.addr x := by
    intro x hx
    rw [← hs']
    exact update_of_ne (by rintro rfl; exact hd hx) _ _
  have hself : s'.addr d = page := by
    rw [← hs']
    exact update_self _ _ _
  have hlog : s'.allocated = page :: s.allocated ∧ s'.freed = s.freed := by
    rw [← hs']
    exact ⟨rfl, rfl⟩
  constructor
  · rw [← hs']
    exact hsize.trans h.size
  · have hset := hfree.frame (touches_setDesc q (mem_singleton_self d)
      ⟨none, virtioNetHdrSize + frameLen, false, false, 0⟩) rfl rfl (by
        simpa using (nodup_cons.mp h.free.nodup).1)
    rw [← hs']
    exact ⟨hset.linked, hset.nodup, hset.count⟩
  · have hshares := h.shares
    rw [cons_append] at hshares
    exact (hout.append_left l).trans (perm_middle.trans hshares)
  · rw [hlog.1, hlog.2]
    refine List.Perm.trans ?_ ((hout.map s'.addr).symm.append_left s.freed)
    rw [map_cons, hself, map_congr_left haddr]
    exact (h.pages.cons page).trans perm_middle.symm
  · intro x hx
    rcases mem_cons.mp (hout.mem_iff.mp hx) with rfl | hx
    · rwa [hself]
    · rw [haddr x hx]
      exact h.nonzero x hx
  · rw [← hs']
    exact h.lastAvail
  · rw [← hs']
    exact wrapSucc_lt _
  · rw [← hs']
    exact hlast.symm ▸ h.lastUsed
  · rw [← hs']
    exact hused.symm ▸ h.used

/-- The rest of a call, with or without a free descriptor, with or without a page. -/
theorem Inv.send (h : Inv n s l) (hdvd : n ∣ 2 ^ 16) (hn : n < 2 ^ 16) (frameLen : Nat) {page : Option Nat}
    (hpage : page ≠ some 0) : ∃ l', Inv n (s.send frameLen page s.txQueue).1 l' := by
  unfold Tx.send
  cases l with
  | nil =>
    rw [allocDesc_nil h.free]
    exact ⟨[], h.permute rfl h.free (List.Perm.refl _) rfl rfl h.lastAvail h.nextAvail h.lastUsed h.used⟩
  | cons d l =>
    obtain ⟨q, hal, hfree, ht⟩ := allocDesc_list h.free
    rw [hal]
    cases page with
    | none =>
      -- the descriptor goes back to where it was
      have hlt : d < n := mem_range.mp (h.shares.mem_iff.mp (mem_append_left _ mem_cons_self))
      have hback := freeDesc_list hfree (nodup_cons.mp h.free.nodup).1 (by omega : d < 0xFFFF)
      have hrings : (q.freeDesc d).rings = s.txQueue.rings := ht.rings
      have hused : ((q.freeDesc d).usedRing, (q.freeDesc d).usedIdx, (q.freeDesc d).lastUsedIdx) =
        (s.txQueue.usedRing, s.txQueue.usedIdx, s.txQueue.lastUsedIdx) := ht.used
      simp only [Virtqueue.rings, Prod.mk.injEq] at hrings hused
      refine ⟨d :: l, h.permute hrings.1 hback ?_ rfl rfl h.lastAvail (hrings.2.2 ▸ h.nextAvail)
        (hused.2.2 ▸ h.lastUsed) (hused.2.1 ▸ h.used)⟩
      simp only [Tx.outstanding, Tx.unfetched, Tx.unreaped, hrings, hused]
      exact List.Perm.refl _
    | some page => exact ⟨l, h.submit hdvd hn hfree ht fun he => hpage (congrArg some he)⟩

/-! ## Steps of the device -/

/-- The first of the unfetched becomes the last in flight. -/
theorem perm_shift (d : Nat) (us is rs : List Nat) : (us ++ (is ++ [d]) ++ rs).Perm (d :: us ++ is ++ rs) :=
  ((perm_append_comm.append_left us).trans perm_middle).append_right rs

theorem Inv.devFetch (h : Inv n s l) (hne : s.lastAvail ≠ s.txQueue.nextAvail) :
    Inv n { s with
      lastAvail := wrapSucc s.lastAvail
      inflight := s.inflight ++ [s.txQueue.availRing (s.lastAvail % s.txQueue.queueSize)] } l := by
  refine h.permute rfl h.free ?_ rfl rfl (wrapSucc_lt _) h.nextAvail h.lastUsed h.used
  have hpop : s.unfetched = s.txQueue.availRing (s.lastAvail % s.txQueue.queueSize) ::
      between s.txQueue.availRing (2 ^ 16) s.txQueue.queueSize (wrapSucc s.lastAvail) s.txQueue.nextAvail := by
    rw [Tx.unfetched, between_pop _ _ h.nextAvail h.lastAvail hne, wrapSucc]
  rw [Tx.outstanding, Tx.outstanding, hpop, Tx.unfetched, unreaped_congr rfl rfl]
  exact perm_shift _ _ _ _

theorem Inv.devComplete (h : Inv n s l) (hdvd : n ∣ 2 ^ 16) (hn : n < 2 ^ 16) {i d : Nat} (hd : s.inflight[i]? = some d) :
    Inv n { s with
      inflight := s.inflight.eraseIdx i
      txQueue := { s.txQueue with
        usedRing := update s.txQueue.usedRing (s.txQueue.usedIdx % s.txQueue.queueSize) (d, 0)
        usedIdx := wrapSucc s.txQueue.usedIdx } } l := by
  refine h.permute rfl ⟨h.free.linked, h.free.nodup, h.free.count⟩ ?_ rfl rfl h.lastAvail h.nextAvail h.lastUsed
    (wrapSucc_lt _)
  obtain ⟨hi, rfl⟩ := List.getElem?_eq_some_iff.mp hd
  -- the descriptor is still in flight, so there is room in the ring
  have hroom : lag (2 ^ 16) s.txQueue.lastUsedIdx s.txQueue.usedIdx < n := by
    have hlen := h.length
    simp only [Tx.outstanding, Tx.unreaped, length_append, length_map, length_between] at hlen
    omega
  have hpush := between_push s.txQueue.usedRing (s.inflight[i], 0) hdvd h.used h.lastUsed hroom hn
  rw [← h.size] at hpush
  have hunreaped : s.unreaped ++ [s.inflight[i]] =
      (between (update s.txQueue.usedRing (s.txQueue.usedIdx % s.txQueue.queueSize) (s.inflight[i], 0)) (2 ^ 16)
        s.txQueue.queueSize s.txQueue.lastUsedIdx (wrapSucc s.txQueue.usedIdx)).map (·.1) := by
    rw [wrapSucc, hpush, map_append]
    rfl
  rw [Tx.outstanding, Tx.outstanding, Tx.unreaped, ← hunreaped, append_assoc, append_assoc]
  refine List.Perm.append_left _ ?_
  refine (perm_append_comm_assoc _ _ _).trans ?_
  exact ((perm_append_comm.trans (getElem_cons_eraseIdx_perm hi)).append_left _).trans perm_append_comm

/-! ## Runs -/

theorem popUsed_cases (q : Virtqueue) :
    (q.usedIdx = q.lastUsedIdx ∧ q.popUsed = (none, q)) ∨
    (q.usedIdx ≠ q.lastUsedIdx ∧ ∃ d len, q.usedRing (q.lastUsedIdx % q.queueSize) = (d, len) ∧
      q.popUsed = (some (d, len), { q with lastUsedIdx := wrapSucc q.lastUsedIdx })) := by
  unfold Virtqueue.popUsed
  split
  · rename_i h
    exact .inl ⟨h, rfl⟩
  · rename_i h
    exact .inr ⟨h, _, _, rfl, rfl⟩

theorem Inv.step (h : Inv n s l) (hdvd : n ∣ 2 ^ 16) (hn : n < 2 ^ 16) {a : Act} (hpage : a.PageOk) {s' : Tx}
    {r : Option (Except NetError Unit)} (hstep : s.step a = some (s', r)) : ∃ l', Inv n s' l' := by
  cases a with
  | call frameLen =>
    simp only [Tx.step] at hstep
    split at hstep
    · split at hstep
      · cases hstep
        exact ⟨l, h⟩
      · cases hstep
        exact ⟨l, h.permute rfl h.free (List.Perm.refl _) rfl rfl h.lastAvail h.nextAvail h.lastUsed h.used⟩
    · cases hstep
  | reap =>
    cases hpc : s.pc with
    | idle =>
      simp only [Tx.step, hpc] at hstep
      cases hstep
    | draining frameLen =>
      rcases popUsed_cases s.txQueue with ⟨-, hpop⟩ | ⟨hne, d, len, hd, hpop⟩
      · simp only [Tx.step, hpc, hpop] at hstep
        cases hstep
      · simp only [Tx.step, hpc, hpop] at hstep
        cases hstep
        have hreap := h.reap hn hne
        rw [hd] at hreap
        exact ⟨_, hreap⟩
  | send page =>
    cases hpc : s.pc with
    | idle =>
      simp only [Tx.step, hpc] at hstep
      cases hstep
    | draining frameLen =>
      rcases popUsed_cases s.txQueue with ⟨-, hpop⟩ | ⟨hne, d, len, hd, hpop⟩
      · simp only [Tx.step, hpc, hpop] at hstep
        cases hstep
        exact h.send hdvd hn frameLen hpage
      · simp only [Tx.step, hpc, hpop] at hstep
        cases hstep
  | devFetch =>
    simp only [Tx.step] at hstep
    split at hstep
    · cases hstep
    · rename_i hne
      cases hstep
      exact ⟨l, h.devFetch hne⟩
  | devComplete i =>
    simp only [Tx.step] at hstep
    split at hstep
    · cases hstep
    · rename_i d hd
      cases hstep
      exact ⟨l, h.devComplete hdvd hn hd⟩

theorem Reach.inv (hpos : 0 < n) (hn : n < 2 ^ 16) (hdvd : n ∣ 2 ^ 16) (h : Reach n s) : ∃ l, Inv n s l := by
  induction h with
  | init => exact ⟨_, inv_init hpos hn⟩
  | act _ hpage hstep ih =>
    obtain ⟨l, hl⟩ := ih
    exact hl.step hdvd hn hpage hstep

end

/-- **Pages are reclaimed exactly once** when the queue size is a power of two. -/
theorem tx_pages_balanced (k : Nat) (hk : k < 16) (s : Tx) (hreach : Reach (2 ^ k) s) : Balanced s := by
  obtain ⟨l, hl⟩ := hreach.inv (Nat.two_pow_pos k) (Nat.pow_lt_pow_right (by decide) hk)
    (Nat.pow_dvd_pow 2 (Nat.le_of_lt hk))
  exact hl.balanced

/-! ## Lists of actions -/

/-- A list of actions. -/
def Tx.run (s : Tx) : List Act → Option Tx
  | [] => some s
  | a :: as => (s.step a).bind fun r => r.1.run as

theorem Tx.run_append (s : Tx) (as bs : List Act) : s.run (as ++ bs) = (s.run as).bind (·.run bs) := by
  induction as generalizing s with
  | nil => rfl
  | cons a as ih =>
    simp only [cons_append, Tx.run, Option.bind_assoc, ih]

theorem Reach.run {n : Nat} {s s' : Tx} {acts : List Act} (h : Reach n s) (hok : ∀ a ∈ acts, a.PageOk)
    (hrun : s.run acts = some s') : Reach n s' := by
  induction acts generalizing s with
  | nil =>
    cases hrun
    exact h
  | cons a as ih =>
    obtain ⟨r, hstep, hrest⟩ := bind_eq_some_iff.mp hrun
    exact ih (h.act (hok a mem_cons_self) hstep) (fun b hb => hok b (mem_cons_of_mem _ hb)) hrest

/-- Two packets in a queue of two, completed in the other order, and a third that reaps one of them. -/
def threePackets : List Act :=
  [.call 60, .send (some 0x100000), .call 60, .send (some 0x101000), .devFetch, .devFetch, .devComplete 1, .call 60, .reap,
    .send (some 0x102000)]

theorem tx_pages_balanced_threePackets : ∃ s, (Tx.init 2).run threePackets = some s ∧ s.freed = [0x101000] ∧
    s.outstanding.length = 2 ∧ Balanced s := by
  have hrun : ((Tx.init 2).run threePackets).map (fun s => (s.freed, s.outstanding.length)) = some ([0x101000], 2) := by
    decide +kernel
  obtain ⟨s, hs, hstate⟩ := map_eq_some_iff.mp hrun
  obtain ⟨hfreed, hout⟩ := Prod.mk.inj hstate
  have hok : ∀ a ∈ threePackets, a.PageOk := by
    intro a ha
    simp only [threePackets, mem_cons, not_mem_nil, or_false] at ha
    rcases ha with rfl | rfl | rfl | rfl | rfl | rfl | rfl | rfl | rfl | rfl <;> simp [Act.PageOk]
  exact ⟨s, hs, hfreed, hout, tx_pages_balanced 1 (by decide) s (Reach.init.run hok hs)⟩

/-! ## Three descriptors -/

/-- A queue of three after `i` packets, each in the same page, the last one completed and not reaped. -/
def Tx.steady (i : Nat) (allocated freed : List Nat) : Tx :=
  { txQueue :=
      { desc := update (Virtqueue.new 3).desc 0 ⟨none, virtioNetHdrSize + 60, false, false, 0⟩
        queueSize := 3
        freeHead := 1
        numFree := 2
        availRing := fun _ => 0
        nextAvail := i
        usedRing := fun _ => (0, 0)
        usedIdx := i
        lastUsedIdx := i - 1 }
    addr := update (fun _ => 0) 0 0x100000
    pc := .idle
    lastAvail := i
    inflight := []
    allocated
    freed }

/-- The first packet, sent and completed. -/
def firstPacket : List Act := [.call 60, .send (some 0x100000), .devFetch, .devComplete 0]

/-- One more packet, which reaps the one before. -/
def onePacket : List Act := [.call 60, .reap, .send (some 0x100000), .devFetch, .devComplete 0]

theorem run_firstPacket : (Tx.init 3).run firstPacket = some (.steady 1 [0x100000] []) := by
  simp [firstPacket, Tx.run, Tx.step, Tx.init, Tx.steady, Tx.send, Tx.submit, Virtqueue.popUsed, Virtqueue.new, Virtqueue.allocDesc,
    Virtqueue.submit, Virtqueue.setDesc, wrapSucc, txBufSize, virtioNetHdrSize]

theorem run_onePacket {i : Nat} (hpos : 0 < i) (hi : i + 1 < 2 ^ 16) (allocated freed : List Nat) :
    (Tx.steady i allocated freed).run onePacket =
      some (.steady (i + 1) (0x100000 :: allocated) (0x100000 :: freed)) := by
  have hne : i ≠ i - 1 := by omega
  have hlast : (i - 1 + 1) % 65536 = i := by omega
  have hnext : (i + 1) % 65536 = i + 1 := by omega
  simp [onePacket, Tx.run, Tx.step, Tx.steady, Tx.send, Tx.submit, Tx.reap, Virtqueue.popUsed, Virtqueue.new,
    Virtqueue.allocDesc, Virtqueue.freeDesc, Virtqueue.submit, Virtqueue.setDesc, wrapSucc, txBufSize, virtioNetHdrSize,
    hne, hlast, hnext]

/-- A packet, and `i` more of them. -/
def packets : Nat → List Act
  | 0 => firstPacket
  | i + 1 => packets i ++ onePacket

/-- Packet after packet, up to the end of the 16-bit cursors. -/
theorem run_packets (i : Nat) (hi : i + 1 < 2 ^ 16) : (Tx.init 3).run (packets i) =
    some (.steady (i + 1) (List.replicate (i + 1) 0x100000) (List.replicate i 0x100000)) := by
  induction i with
  | zero => exact run_firstPacket
  | succ i ih =>
    rw [packets, Tx.run_append, ih (by omega), bind_some, run_onePacket (Nat.succ_pos i) hi]
    rfl

theorem packets_pageOk (i : Nat) : ∀ a ∈ packets i, a.PageOk := by
  induction i with
  | zero => simp [packets, firstPacket, Act.PageOk]
  | succ i ih => exact forall_mem_append.mpr ⟨ih, by simp [onePacket, Act.PageOk]⟩

/-- Two more packets, both with the device. -/
def twoPackets : List Act :=
  [.call 60, .reap, .send (some 0x100000), .devFetch, .call 60, .send (some 0x101000), .devFetch]

/-- Both are completed and reaped. -/
def reapBoth : List Act := [.devComplete 0, .devComplete 0, .call 60, .reap, .reap]

/-- Descriptors 0 and 1 are with the device, and the used ring is empty at cursor `i`. -/
structure TwoOut (s : Tx) (i : Nat) : Prop where
  size : s.txQueue.queueSize = 3
  pc : s.pc = .idle
  inflight : s.inflight = [0, 1]
  usedIdx : s.txQueue.usedIdx = i
  lastUsedIdx : s.txQueue.lastUsedIdx = i
  addr : s.addr 1 = 0x101000

theorem run_twoPackets {i : Nat} (hi : i = 65535) (allocated freed : List Nat) :
    ∃ s, (Tx.steady i allocated freed).run twoPackets = some s ∧ TwoOut s i ∧
      s.allocated = 0x101000 :: 0x100000 :: allocated ∧ s.freed = 0x100000 :: freed := by
  have hne : i ≠ i - 1 := by omega
  have hlast : (i - 1 + 1) % 65536 = i := by omega
  have hwrap : (i + 1) % 65536 = 0 := by omega
  have hzero : i ≠ 0 := by omega
  -- these facts are all that matters of `i`; the number itself would be computed with at every step
  clear hi
  suffices h : ∃ s, (Tx.steady i allocated freed).run twoPackets = some s ∧
      (s.txQueue.queueSize = 3 ∧ s.pc = .idle ∧ s.inflight = [0, 1] ∧ s.txQueue.usedIdx = i ∧ s.txQueue.lastUsedIdx = i ∧
        s.addr 1 = 0x101000) ∧ s.allocated = 0x101000 :: 0x100000 :: allocated ∧ s.freed = 0x100000 :: freed by
    obtain ⟨s, hrun, ⟨h₁, h₂, h₃, h₄, h₅, h₆⟩, hlogs⟩ := h
    exact ⟨s, hrun, ⟨h₁, h₂, h₃, h₄, h₅, h₆⟩, hlogs⟩
  simp [twoPackets, Tx.run, Tx.step, Tx.steady, Tx.send, Tx.submit, Tx.reap, Virtqueue.popUsed, Virtqueue.new,
    Virtqueue.allocDesc, Virtqueue.freeDesc, Virtqueue.submit, Virtqueue.setDesc, wrapSucc, txBufSize, virtioNetHdrSize,
    hne, hlast, hwrap, hzero]

/-- The completions have the cursors 65535 and 0, and both are cell 0 of the used ring. -/
theorem run_reapBoth {s : Tx} {i : Nat} (hi : i = 65535) (h : TwoOut s i) : ∃ s', s.run reapBoth = some s' ∧
    s'.allocated = s.allocated ∧ s'.freed = 0x101000 :: 0x101000 :: s.freed := by
  have hwrap : (i + 1) % 65536 = 0 := by omega
  have hcell : i % 3 = 0 := by omega
  have hone : 1 ≠ i := by omega
  clear hi
  simp [reapBoth, Tx.run, Tx.step, Tx.reap, Virtqueue.popUsed, Virtqueue.freeDesc, Virtqueue.setDesc, wrapSucc, txBufSize,
    virtioNetHdrSize, h.size, h.pc, h.inflight, h.usedIdx, h.lastUsedIdx, h.addr, hwrap, hcell, hone]

/-- With three descriptors the page of packet 65537 is freed twice: 65535 packets one after the other, two at once,
    and both reaped by the next call. -/
theorem tx_wrap_frees_twice : (∀ a ∈ packets 65534 ++ (twoPackets ++ reapBoth), a.PageOk) ∧
    ∃ s, (Tx.init 3).run (packets 65534 ++ (twoPackets ++ reapBoth)) = some s ∧ ¬ Balanced s := by
  constructor
  · exact forall_mem_append.mpr ⟨packets_pageOk 65534, by simp [twoPackets, reapBoth, Act.PageOk]⟩
  · -- a variable stands for the number of packets, so that nothing unfolds them
    obtain ⟨i, hi⟩ : ∃ i, i = 65534 := ⟨_, rfl⟩
    rw [← hi]
    obtain ⟨s₁, hs₁, hwrap, halloc, hfreed⟩ := run_twoPackets (by omega : i + 1 = 65535)
      (List.replicate (i + 1) 0x100000) (List.replicate i 0x100000)
    obtain ⟨s₂, hs₂, halloc', hfreed'⟩ := run_reapBoth (by omega) hwrap
    refine ⟨s₂, ?_, fun hb => ?_⟩
    · rw [Tx.run_append, run_packets i (by omega), bind_some, Tx.run_append, hs₁, bind_some, hs₂]
    · have hcount := hb.pages.count_eq 0x101000
      rw [halloc', halloc, hfreed', hfreed] at hcount
      simp [count_append, count_replicate] at hcount

end Folkering.Net
