/-
  The byte ring with its producer and its consumer at work at the same time.

  `push`, `pop_into`, `peek` and `drop_n` are cut at their atomic loads and stores; the bytes between are copied one by
  one.  The producer and the consumer each take their next step at any time (`Machine.move`).
    * `Machine` holds the ring, where both sides stand, and what has happened: the bytes accepted and consumed, the
      bytes that a peek has shown and that are still in the ring, the messages refused with the room there was;
    * `Queue` — the accepted bytes are the consumed ones followed by what is in the ring; a copy under way stands behind
      that, and what a consumer has read so far is a beginning of it.  Every step keeps it.
-/
import Folkering.Gfx.Ring

namespace Folkering.Gfx

open Circular List

variable {N : Nat}

/-- Where byte `i` of a copy of `len` bytes goes: the copy is made in two pieces where it passes the end. -/
def place (N offset len i : Nat) : Nat :=
  let off := offset % N
  let first := min len (N - off)
  if i < first then off + i else i - first

/-- Where a `push` stands. -/
inductive Producer where
  | idle
  | gotHead (data : List UInt8) (head : UInt64)
  | copying (data : List UInt8) (head : UInt64) (written : Nat)
deriving Repr, DecidableEq

/-- Where a call of the consumer stands; `keep` is `peek`. -/
inductive Consumer where
  | idle
  | gotTail (keep : Bool) (outLen : Nat) (tail : UInt64)
  | reading (keep : Bool) (tail : UInt64) (n : Nat) (out : List UInt8)
  | dropping (tail : UInt64) (n : Nat)
deriving Repr, DecidableEq

/-- What a step has brought to an end. -/
inductive Effect where
  | nothing
  | refused (data : List UInt8)
  | accepted (data : List UInt8)
  | peeked (out : List UInt8)
  | consumed (out : List UInt8)
  | dropped (n : Nat)
deriving Repr, DecidableEq

/-- The next step of a `push`: the load of `tail` with the check, one byte, or the store of `head`. -/
def Producer.step (r : IpcGraphicsRing N) : Producer → Option (IpcGraphicsRing N × Producer × Effect)
  | .idle => none
  | .gotHead data head =>
    let occupied := (head - r.tail).toNat
    if N < occupied + data.length then some (r, .idle, .refused data)
    else some (r, .copying data head 0, .nothing)
  | .copying data head written =>
    match data[written]? with
    | some byte =>
      some ({ r with buffer := Function.update r.buffer (place N head.toNat data.length written) byte },
        .copying data head (written + 1), .nothing)
    | none => some ({ r with head := head + .ofNat data.length }, .idle, .accepted data)

/-- The next step of the consumer: the load of `head`, one byte, or the store of `tail`. -/
def Consumer.step (r : IpcGraphicsRing N) : Consumer → Option (IpcGraphicsRing N × Consumer × Effect)
  | .idle => none
  | .gotTail keep outLen tail =>
    let n := min (r.head - tail).toNat outLen
    if n = 0 then some (r, .idle, .nothing) else some (r, .reading keep tail n [], .nothing)
  | .reading keep tail n out =>
    if out.length < n then
      some (r, .reading keep tail n (out ++ [r.buffer (place N tail.toNat n out.length)]), .nothing)
    else if keep then some (r, .idle, .peeked out)
    else some ({ r with tail := tail + .ofNat n }, .idle, .consumed out)
  | .dropping tail n => some ({ r with tail := tail + .ofNat n }, .idle, .dropped n)

/-- The ring, where its two sides are, and what went in and out. -/
structure Machine (N : Nat) where
  ring : IpcGraphicsRing N
  producer : Producer
  consumer : Consumer
  accepted : List UInt8
  consumed : List UInt8
  /-- shown by a peek, and not consumed since -/
  seen : List UInt8
  /-- the messages, with the room in the ring at the check -/
  refusals : List (List UInt8 × Nat)

namespace Machine

/-- The free bytes. -/
def room (m : Machine N) : Nat := N - m.ring.occupied

/-- The outcome goes into the books. -/
def note (m : Machine N) : Effect → Machine N
  | .nothing => m
  | .refused data => { m with refusals := (data, m.room) :: m.refusals }
  | .accepted data => { m with accepted := m.accepted ++ data }
  | .peeked out => { m with seen := if m.seen.length ≤ out.length then out else m.seen }
  | .consumed out => { m with consumed := m.consumed ++ out, seen := m.seen.drop out.length }
  | .dropped n => { m with consumed := m.consumed ++ m.seen.take n, seen := m.seen.drop n }

/-- The beginning of a `push`: the check against the capacity, the load of `head`. -/
def push (m : Machine N) (data : List UInt8) : Machine N :=
  if N < data.length then m.note (.refused data) else { m with producer := .gotHead data m.ring.head }

end Machine

/-- What can happen next: a side begins a call, or goes on with the one it is in. -/
inductive Move where
  | push (data : List UInt8)
  | produce
  | take (keep : Bool) (outLen : Nat)
  | drop (n : Nat)
  | consume
deriving Repr, DecidableEq

/-- One step of one side.  The consumer drops at most what it has been shown. -/
def Machine.move (m : Machine N) : Move → Option (Machine N)
  | .push data => if m.producer = .idle then some (m.push data) else none
  | .produce => (m.producer.step m.ring).map fun s => ({ m with ring := s.1, producer := s.2.1 } : Machine N).note s.2.2
  | .take keep outLen =>
    if m.consumer = .idle then some { m with consumer := .gotTail keep outLen m.ring.tail } else none
  | .drop n =>
    if m.consumer = .idle ∧ n ≤ m.seen.length then some { m with consumer := .dropping m.ring.tail n } else none
  | .consume => (m.consumer.step m.ring).map fun s => ({ m with ring := s.1, consumer := s.2.1 } : Machine N).note s.2.2

/-- An interleaving. -/
def Machine.moves (m : Machine N) : List Move → Option (Machine N)
  | [] => some m
  | a :: as => (m.move a).bind (·.moves as)

/-- An empty ring, its counters anywhere, before the first call. -/
structure Start (m : Machine N) : Prop where
  empty : m.ring.head = m.ring.tail
  producer : m.producer = .idle
  consumer : m.consumer = .idle
  books : m.accepted = [] ∧ m.consumed = [] ∧ m.seen = [] ∧ m.refusals = []

/-- Some moves lead here from a start. -/
def Reachable (m : Machine N) : Prop := ∃ m₀ as, Start m₀ ∧ m₀.moves as = some m

/-! ## Copies -/

theorem place_eq {p len i : Nat} (hi : i < len) (hlen : len ≤ N) : place N p len i = (p + i) % N := by
  have hw : p % N < N := Nat.mod_lt _ (by omega)
  rw [← Nat.mod_add_mod p N i]
  unfold place
  generalize p % N = w at hw ⊢
  rw [add_mod_of_lt hw (by omega)]
  simp only
  split_ifs <;> omega

theorem window_succ (m : Nat → UInt8) (p i : Nat) : window m N p (i + 1) = window m N p i ++ [m ((p + i) % N)] := by
  rw [window_append]
  simp [window]

/-! ## The invariant -/

/-- The bytes that a `push` has copied so far. -/
def Producer.copied : Producer → List UInt8
  | .copying data _ written => data.take written
  | _ => []

/-- A `push` under way knows the head, and once it copies, its message fits. -/
def Producer.Ok (r : IpcGraphicsRing N) : Producer → Prop
  | .idle => True
  | .gotHead data head => head = r.head ∧ data.length ≤ N
  | .copying data head written => head = r.head ∧ written ≤ data.length ∧ r.occupied + data.length ≤ N

/-- A consumer knows the tail, and reads what is in the ring. -/
def Consumer.Ok (r : IpcGraphicsRing N) (seen : List UInt8) : Consumer → Prop
  | .idle => True
  | .gotTail _ _ tail => tail = r.tail
  | .reading _ tail n out => tail = r.tail ∧ out.length ≤ n ∧ n ≤ r.occupied ∧ out <+: r.contents
  | .dropping tail n => tail = r.tail ∧ n ≤ seen.length

/-- What was accepted is what was consumed and what the ring holds. -/
structure Queue (m : Machine N) : Prop where
  fits : m.ring.Fits
  queue : m.accepted = m.consumed ++ m.ring.contents
  copied : window m.ring.buffer N m.ring.head.toNat m.producer.copied.length = m.producer.copied
  producer : m.producer.Ok m.ring
  consumer : m.consumer.Ok m.ring m.seen
  seen : m.seen <+: m.ring.contents
  refusals : ∀ q ∈ m.refusals, q.2 < q.1.length

section

variable {m m' : Machine N} {r : IpcGraphicsRing N}

theorem Start.queue (h : Start m) : Queue m := by
  obtain ⟨haccepted, hconsumed, hseen, hrefusals⟩ := h.books
  have hocc : m.ring.occupied = 0 := by
    unfold IpcGraphicsRing.occupied
    rw [h.empty, UInt64.sub_self]
    rfl
  have hnil : m.ring.contents = [] := length_eq_zero_iff.mp (by rw [IpcGraphicsRing.length_contents, hocc])
  constructor
  · unfold IpcGraphicsRing.Fits
    omega
  · rw [haccepted, hconsumed, hnil]
    rfl
  · rw [h.producer]
    rfl
  · rw [h.producer]
    trivial
  · rw [h.consumer]
    trivial
  · rw [hseen]
    exact nil_prefix
  · rw [hrefusals]
    intro q hq
    cases hq

/-- The consumer's knowledge stays good while the ring grows behind it. -/
theorem Consumer.Ok.grow {c : Consumer} {seen : List UInt8} {r r' : IpcGraphicsRing N} (h : c.Ok r seen)
    (htail : r'.tail = r.tail) (hocc : r.occupied ≤ r'.occupied) (hcontents : r.contents <+: r'.contents) : c.Ok r' seen := by
  cases c with
  | idle => trivial
  | gotTail keep outLen tail => exact h.trans htail.symm
  | reading keep tail n out => exact ⟨h.1.trans htail.symm, h.2.1, h.2.2.1.trans hocc, h.2.2.2.trans hcontents⟩
  | dropping tail n => exact ⟨h.1.trans htail.symm, h.2⟩

/-- The producer's knowledge stays good while the ring is emptied. -/
theorem Producer.Ok.shrink {p : Producer} {r r' : IpcGraphicsRing N} (h : p.Ok r) (hhead : r'.head = r.head)
    (hocc : r'.occupied ≤ r.occupied) : p.Ok r' := by
  cases p with
  | idle => trivial
  | gotHead data head => exact ⟨h.1.trans hhead.symm, h.2⟩
  | copying data head written => exact ⟨h.1.trans hhead.symm, h.2.1, by have := h.2.2; omega⟩

theorem Queue.push (h : Queue m) (data : List UInt8) : Queue (m.push data) := by
  unfold Machine.push
  split
  · rename_i hlarge
    refine { h with refusals := fun q hq => ?_ }
    rcases mem_cons.mp hq with rfl | hq
    · exact lt_of_le_of_lt (Nat.sub_le _ _) hlarge
    · exact h.refusals q hq
  · rename_i hle
    exact { h with copied := rfl, producer := ⟨rfl, not_lt.mp hle⟩ }

section

variable (hN : N ∣ 2 ^ 64) (hlt : N < 2 ^ 64)

include hN

/-- A byte behind the copied ones does not touch the contents. -/
theorem write_window (byte : UInt8) {n : Nat} (hroom : r.occupied + n < N) :
    let r' : IpcGraphicsRing N := { r with buffer := Function.update r.buffer ((r.head.toNat + n) % N) byte }
    r'.contents = r.contents ∧ window r'.buffer N r.head.toNat (n + 1) = window r.buffer N r.head.toNat n ++ [byte] := by
  intro r'
  have hplace : (r.head.toNat + n) % N = (r.tail.toNat + (r.occupied + n)) % N := by
    rw [r.head_eq, ← Nat.mod_add_mod, Nat.mod_mod_of_dvd _ hN, Nat.mod_add_mod, Nat.add_assoc]
  have hall : window r'.buffer N r.tail.toNat (r.occupied + (n + 1)) =
      window r.buffer N r.tail.toNat (r.occupied + n) ++ [byte] := by
    show window (Function.update r.buffer ((r.head.toNat + n) % N) byte) N _ _ = _
    rw [hplace]
    exact window_update byte hroom
  rw [window_append _ _ _ r.occupied (n + 1), window_append _ _ _ r.occupied n, append_assoc] at hall
  obtain ⟨hcontents, hbehind⟩ := append_inj hall (by rw [length_window, length_window])
  rw [IpcGraphicsRing.window_head hN r] at hbehind
  exact ⟨hcontents, (IpcGraphicsRing.window_head hN r' (n + 1)).symm.trans hbehind⟩

include hlt

theorem Queue.produce (h : Queue m) {p : Producer} {o : Effect} (hstep : m.producer.step m.ring = some (r, p, o)) :
    Queue (({ m with ring := r, producer := p } : Machine N).note o) := by
  have hok := h.producer
  have hcopied := h.copied
  cases hp : m.producer with
  | idle =>
    rw [hp] at hstep
    cases hstep
  | gotHead data head =>
    rw [hp] at hstep hok
    obtain ⟨rfl, hlen⟩ := hok
    simp only [Producer.step] at hstep
    split at hstep
    · -- the check: the counter of the producer and the tail as it is now
      rename_i hfull
      cases hstep
      refine { h with copied := rfl, producer := trivial, refusals := fun q hq => ?_ }
      rcases mem_cons.mp hq with rfl | hq
      · show N - m.ring.occupied < data.length
        have hocc : (m.ring.head - m.ring.tail).toNat = m.ring.occupied := rfl
        have hfits : m.ring.occupied ≤ N := h.fits
        omega
      · exact h.refusals q hq
    · rename_i hroom
      cases hstep
      exact { h with copied := rfl, producer := ⟨rfl, Nat.zero_le _, not_lt.mp hroom⟩ }
  | copying data head written =>
    rw [hp] at hstep hok hcopied
    obtain ⟨rfl, hwritten, hfits⟩ := hok
    rw [Producer.copied, length_take, Nat.min_eq_left hwritten] at hcopied
    simp only [Producer.step] at hstep
    cases hbyte : data[written]? with
    | some byte =>
      obtain ⟨hlt', rfl⟩ := List.getElem?_eq_some_iff.mp hbyte
      rw [hbyte] at hstep
      simp only [place_eq hlt' (show data.length ≤ N by omega)] at hstep
      cases hstep
      obtain ⟨hcontents, hbehind⟩ := write_window hN (r := m.ring) data[written] (n := written) (by omega)
      simp only [Machine.note]
      refine ⟨h.fits, ?_, ?_, ⟨rfl, hlt', hfits⟩, h.consumer.grow rfl le_rfl ?_, ?_, h.refusals⟩
      · rw [hcontents]
        exact h.queue
      · simp only [Producer.copied]
        rw [length_take, Nat.min_eq_left hlt', hbehind, hcopied, take_append_getElem]
      · exact hcontents ▸ prefix_refl _
      · rw [hcontents]
        exact h.seen
    | none =>
      rw [hbyte] at hstep
      cases hstep
      have hall : data.take written = data := take_of_length_le (List.getElem?_eq_none_iff.mp hbyte)
      have hlen : written = data.length := le_antisymm hwritten (List.getElem?_eq_none_iff.mp hbyte)
      rw [hall, hlen] at hcopied
      have hocc := m.ring.occupied_extend (show m.ring.occupied + data.length < 2 ^ 64 by omega)
      have hcontents := m.ring.contents_extend hN (show m.ring.occupied + data.length < 2 ^ 64 by omega)
      rw [hcopied] at hcontents
      have hgrow : m.ring.contents <+: m.ring.contents ++ data := prefix_append _ _
      simp only [Machine.note]
      refine ⟨hocc.trans_le hfits, ?_, rfl, trivial, h.consumer.grow rfl ?_ (hcontents ▸ hgrow), ?_, h.refusals⟩
      · rw [hcontents, h.queue, append_assoc]
      · exact (Nat.le_add_right _ _).trans_eq hocc.symm
      · rw [hcontents]
        exact h.seen.trans hgrow

omit hlt in
/-- The tail moves on over bytes that were read. -/
theorem Queue.advance (h : Queue m) {n : Nat} {out : List UInt8} (hn : n ≤ m.ring.occupied)
    (hout : out = m.ring.contents.take n) : Queue ({ m with
      ring := { m.ring with tail := m.ring.tail + .ofNat n }, consumer := .idle
      consumed := m.consumed ++ out, seen := m.seen.drop n } : Machine N) := by
  have hfits : m.ring.occupied ≤ N := h.fits
  have hocc := m.ring.occupied_advance hn
  have hcontents := m.ring.contents_advance hN hn
  refine ⟨hocc.trans_le (by omega), ?_, h.copied, h.producer.shrink rfl (hocc.trans_le (by omega)), trivial, ?_, h.refusals⟩
  · rw [hcontents, hout, append_assoc, take_append_drop]
    exact h.queue
  · rw [hcontents]
    exact h.seen.drop n

omit hlt in
theorem Queue.consume (h : Queue m) {c : Consumer} {o : Effect} (hstep : m.consumer.step m.ring = some (r, c, o)) :
    Queue (({ m with ring := r, consumer := c } : Machine N).note o) := by
  have hok := h.consumer
  have hfits : m.ring.occupied ≤ N := h.fits
  cases hc : m.consumer with
  | idle =>
    rw [hc] at hstep
    cases hstep
  | gotTail keep outLen tail =>
    rw [hc] at hstep hok
    obtain rfl : tail = m.ring.tail := hok
    simp only [Consumer.step] at hstep
    split at hstep
    · cases hstep
      exact { h with consumer := trivial }
    · cases hstep
      exact { h with consumer := ⟨rfl, Nat.zero_le _, Nat.min_le_left _ _, nil_prefix⟩ }
  | reading keep tail n out =>
    rw [hc] at hstep hok
    obtain ⟨rfl, hlen, hn, hread⟩ := hok
    have hout := prefix_iff_eq_take.mp hread
    simp only [Consumer.step] at hstep
    split at hstep
    · -- the next byte of the contents
      rename_i hlt
      cases hstep
      refine { h with consumer := ⟨rfl, ?_, hn, ?_⟩ }
      · rw [length_append, length_singleton]
        omega
      · rw [place_eq hlt (by omega)]
        nth_rewrite 1 [hout]
        rw [IpcGraphicsRing.contents, window_take _ _ _ (by omega), ← window_succ,
          ← window_take _ _ _ (show out.length + 1 ≤ m.ring.occupied by omega)]
        exact take_prefix _ _
    · rename_i hall
      obtain rfl : out.length = n := by omega
      split at hstep
      · cases hstep
        refine { h with consumer := trivial, seen := ?_ }
        show (if m.seen.length ≤ out.length then out else m.seen) <+: m.ring.contents
        split
        · exact hread
        · exact h.seen
      · cases hstep
        exact h.advance hN hn hout
  | dropping tail n =>
    rw [hc] at hstep hok
    obtain ⟨rfl, hn⟩ := hok
    simp only [Consumer.step] at hstep
    cases hstep
    have hseen := h.seen.length_le
    rw [IpcGraphicsRing.length_contents] at hseen
    refine h.advance hN (by omega) ?_
    rw [prefix_iff_eq_take.mp h.seen, take_take, Nat.min_eq_left hn]

theorem Queue.move (h : Queue m) {a : Move} (hmove : m.move a = some m') : Queue m' := by
  cases a with
  | push data =>
    simp only [Machine.move] at hmove
    split at hmove
    · cases hmove
      exact h.push data
    · cases hmove
  | produce =>
    obtain ⟨s, hstep, rfl⟩ := Option.map_eq_some_iff.mp hmove
    exact h.produce hN hlt hstep
  | take keep outLen =>
    simp only [Machine.move] at hmove
    split at hmove
    · cases hmove
      exact { h with consumer := rfl }
    · cases hmove
  | drop n =>
    simp only [Machine.move] at hmove
    split at hmove
    · rename_i hn
      cases hmove
      exact { h with consumer := ⟨rfl, hn.2⟩ }
    · cases hmove
  | consume =>
    obtain ⟨s, hstep, rfl⟩ := Option.map_eq_some_iff.mp hmove
    exact h.consume hN hstep

theorem Queue.moves (h : Queue m) {as : List Move} (hmoves : m.moves as = some m') : Queue m' := by
  induction as generalizing m with
  | nil =>
    cases hmoves
    exact h
  | cons a as ih =>
    obtain ⟨m₁, hmove, hrest⟩ := Option.bind_eq_some_iff.mp hmoves
    exact ih (h.move hN hlt hmove) hrest

end

end

/-- For every capacity that is a power of two and every interleaving: what was consumed is a beginning of what was
    accepted, and a message was refused only for want of room. -/
theorem ring_spsc_queue {k : Nat} (hk : k < 64) {m : Machine (2 ^ k)} (h : Reachable m) :
    m.consumed <+: m.accepted ∧ ∀ q ∈ m.refusals, q.2 < q.1.length := by
  have hN : 2 ^ k ∣ 2 ^ 64 := pow_dvd_pow 2 (by omega)
  obtain ⟨m₀, as, hstart, hmoves⟩ := h
  have hq := hstart.queue.moves hN (Nat.pow_lt_pow_right (by decide) hk) hmoves
  exact ⟨⟨_, hq.queue.symm⟩, hq.refusals⟩

/-- Two bytes, with the counters about to wrap: a push during which the consumer looks, a push that is refused, a pop
    in the middle of a third push. -/
def busyStart : Machine (2 ^ 1) :=
  { ring := ⟨0xFFFFFFFFFFFFFFFF, 0xFFFFFFFFFFFFFFFF, fun _ => 0⟩, producer := .idle, consumer := .idle
    accepted := [], consumed := [], seen := [], refusals := [] }

/-- Both sides at work, with a wrap. -/
def busyMoves : List Move :=
  [.push [7, 8], .produce, .produce, .take true 2, .consume, .produce, .produce, .push [9], .produce, .take true 1, .consume,
    .consume, .consume, .drop 1, .consume, .push [9], .produce, .take false 2, .consume, .produce, .consume, .consume, .produce]

theorem ring_spsc_queue_busy : ∃ m, Reachable m ∧ m = (busyStart.moves busyMoves).getD busyStart ∧ m.accepted = [7, 8, 9] ∧
    m.refusals = [([9], 0)] ∧ m.consumed <+: m.accepted ∧ ∀ q ∈ m.refusals, q.2 < q.1.length := by
  have hend : ∃ m, busyStart.moves busyMoves = some m ∧ m.accepted = [7, 8, 9] ∧ m.refusals = [([9], 0)] :=
    ⟨_, rfl, by decide +kernel, by decide +kernel⟩
  obtain ⟨m, hmoves, haccepted, hrefusals⟩ := hend
  have hreach : Reachable m := ⟨busyStart, busyMoves, ⟨rfl, rfl, rfl, rfl, rfl, rfl, rfl⟩, hmoves⟩
  exact ⟨m, hreach, by rw [hmoves]; rfl, haccepted, hrefusals, ring_spsc_queue (by decide) hreach⟩

end Folkering.Gfx
