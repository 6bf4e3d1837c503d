/-
  The pre-routing firewall and its table of connection attempts.

  A frame is dropped or allowed by its header fields, and an IPv4 packet that is neither ICMP nor UDP also by
  the table: an address with three counted connection attempts is blocked until 120 seconds after the last
  one.  The table has sixteen entries; when it is full an entry that blocks nobody makes room for a new
  address.

  1. **Program** — `filterPacket`, `recordSynAttempt` with its eviction, `isBlocked`.
  2. **History** — a `World` keeps beside the table when each address sent attempts and when one of them was
     last recorded, so that "until 120 seconds after the last recorded one" can be said.
  3. **The crux** — a blocking entry that has not expired is never touched (`Blocks.step`): its address's
     packets are dropped before they are recorded, and nobody else's attempt evicts it.
  4. **The result** (`third_attempt_blocks_iff`) — after a third attempt the address stays blocked, whatever
     follows, iff the table counted the two before it.
-/
import Mathlib

namespace Folkering.Firewall

open List Function

/-! ## The table of attempts -/

/-- An IPv4 address. -/
abbrev Ip := UInt8 × UInt8 × UInt8 × UInt8

/-- An address, its counted attempts and the time of the last one in milliseconds. -/
structure Attempts where
  ip : Ip
  count : Nat
  lastSeen : Nat
deriving Repr, DecidableEq

/-- The entries of the block list. -/
def maxBlocklist : Nat := 16
/-- Two minutes. -/
def blockDurationMs : Nat := 120000

/-- The entry is a block that has run out. -/
def Attempts.Expired (e : Attempts) (now : Nat) : Prop := 3 ≤ e.count ∧ blockDurationMs ≤ now - e.lastSeen

instance (e : Attempts) (now : Nat) : Decidable (e.Expired now) := inferInstanceAs (Decidable (_ ∧ _))

/-- Another attempt of a tracked address; the counter is a `u8` that saturates. -/
def Attempts.bump (e : Attempts) (now : Nat) : Attempts :=
  if e.Expired now then { e with count := 1, lastSeen := now }
  else { e with count := min (e.count + 1) 255, lastSeen := now }

/-- The first entry of the address, bumped; nothing when the address is not tracked. -/
def bumpTracked (ip : Ip) (now : Nat) : List Attempts → Option (List Attempts)
  | [] => none
  | e :: es => if e.ip = ip then some (e.bump now :: es) else (bumpTracked ip now es).map (e :: ·)

/-- An entry that blocks nobody. -/
def Attempts.Evictable (e : Attempts) (now : Nat) : Prop := e.count < 3 ∨ e.Expired now

instance (e : Attempts) (now : Nat) : Decidable (e.Evictable now) := inferInstanceAs (Decidable (_ ∨ _))

/-- The attempts that count: an expired entry has none. -/
def Attempts.rank (e : Attempts) (now : Nat) : Nat := if e.Expired now then 0 else e.count

/-- The victim loop from entry `i` on, with the victim so far and its rank. -/
def victimFrom (now : Nat) : Nat → List Attempts → Option Nat → Nat → Option Nat
  | _, [], victim, _ => victim
  | i, e :: es, victim, victimRank =>
    if e.Evictable now ∧ e.rank now < victimRank then victimFrom now (i + 1) es (some i) (e.rank now)
    else victimFrom now (i + 1) es victim victimRank

/-- Count an attempt; a new address takes a free place or that of a victim. -/
def recordSynAttempt (entries : List Attempts) (ip : Ip) (now : Nat) : List Attempts :=
  match bumpTracked ip now entries with
  | some entries => entries
  | none =>
    if entries.length < maxBlocklist then entries ++ [⟨ip, 1, now⟩]
    else match victimFrom now 0 entries none 255 with
      | some i => entries.set i ⟨ip, 1, now⟩
      | none => entries

/-- Three attempts, the last one less than two minutes ago. -/
def isBlocked (entries : List Attempts) (ip : Ip) (now : Nat) : Bool :=
  entries.any fun e => e.ip = ip && 3 ≤ e.count && now - e.lastSeen < blockDurationMs

/-! ## The filter -/

/-- What happens to a frame. -/
inductive FirewallAction where
  | allow
  | drop
deriving Repr, DecidableEq

/-- An Ethernet frame. -/
abbrev Frame := List UInt8

/-- A byte of a frame. -/
def byte (frame : Frame) (i : Nat) : UInt8 := frame.getD i 0

/-- A big-endian field of a frame. -/
def be16 (frame : Frame) (i : Nat) : Nat := (byte frame i).toNat * 256 + (byte frame (i + 1)).toNat

/-- The type of an ARP frame. -/
def ethertypeArp : Nat := 0x0806
/-- The type of an IPv4 frame. -/
def ethertypeIpv4 : Nat := 0x0800
/-- The number of ICMP. -/
def protoIcmp : UInt8 := 1
/-- The number of TCP. -/
def protoTcp : UInt8 := 6
/-- The number of UDP. -/
def protoUdp : UInt8 := 17
/-- The flag that opens a connection. -/
def tcpSyn : UInt8 := 0x02
/-- The acknowledgement flag. -/
def tcpAck : UInt8 := 0x10

/-- The sender of a packet. -/
def srcIp (frame : Frame) : Ip := (byte frame 26, byte frame 27, byte frame 28, byte frame 29)

/-- The IP header length in 32-bit words. -/
def ihl (frame : Frame) : Nat := (byte frame 14 &&& 0x0F).toNat

/-- The protocol of a packet. -/
def proto (frame : Frame) : UInt8 := byte frame 23

/-- Where the transport header starts. -/
def transportOffset (frame : Frame) : Nat := 14 + ihl frame * 4

/-- The destination port. -/
def dstPort (frame : Frame) : Nat := be16 frame (transportOffset frame + 2)

/-- The flags of a segment. -/
def tcpFlags (frame : Frame) : UInt8 := byte frame (transportOffset frame + 13)

/-- Rules 4.5 and 5: the table, then the TCP flags. -/
def filterGuarded (entries : List Attempts) (frame : Frame) (now : Nat) : FirewallAction × List Attempts :=
  if isBlocked entries (srcIp frame) now then (.drop, entries)
  else if proto frame = protoTcp then
    if frame.length < transportOffset frame + 14 then (.drop, entries)
    else if tcpFlags frame &&& tcpSyn ≠ 0 ∧ tcpFlags frame &&& tcpAck = 0 then
      if dstPort frame = 2222 then (.allow, entries)
      else (.drop, recordSynAttempt entries (srcIp frame) now)
    else (.allow, entries)
  else (.allow, entries)

/-- `filter_packet` at time `now`, with the table after it. -/
def filterPacket (entries : List Attempts) (frame : Frame) (now : Nat) : FirewallAction × List Attempts :=
  if frame.length < 14 then (.drop, entries)
  else if be16 frame 12 = ethertypeArp then (.allow, entries)
  else if be16 frame 12 ≠ ethertypeIpv4 then (.allow, entries)
  else if frame.length < 34 then (.drop, entries)
  else if ihl frame < 5 then (.drop, entries)
  else if proto frame = protoIcmp then (.allow, entries)
  else if frame.length < transportOffset frame + 4 then (.drop, entries)
  else if proto frame = protoUdp then (.allow, entries)
  else filterGuarded entries frame now

/-! ## Packets and attempts -/

/-- An IPv4 packet of the address other than ICMP and UDP. -/
structure Guarded (frame : Frame) (ip : Ip) : Prop where
  ipv4 : be16 frame 12 = ethertypeIpv4
  header : 34 ≤ frame.length
  source : srcIp frame = ip
  notIcmp : proto frame ≠ protoIcmp
  notUdp : proto frame ≠ protoUdp

/-- A connection attempt that the firewall does not allow: a TCP packet with SYN and without ACK, complete
    headers, and a port other than 2222. -/
structure Disallowed (frame : Frame) (ip : Ip) : Prop where
  ipv4 : be16 frame 12 = ethertypeIpv4
  header : 34 ≤ frame.length
  source : srcIp frame = ip
  ihl : 5 ≤ ihl frame
  tcp : proto frame = protoTcp
  complete : transportOffset frame + 14 ≤ frame.length
  syn : tcpFlags frame &&& tcpSyn ≠ 0
  noAck : tcpFlags frame &&& tcpAck = 0
  port : dstPort frame ≠ 2222

variable {ip : Ip}

theorem Disallowed.guarded {frame : Frame} (h : Disallowed frame ip) : Guarded frame ip := by
  refine ⟨h.ipv4, h.header, h.source, ?_, ?_⟩
  · rw [h.tcp]
    decide
  · rw [h.tcp]
    decide

instance (frame : Frame) (ip : Ip) : Decidable (Disallowed frame ip) :=
  decidable_of_iff (be16 frame 12 = ethertypeIpv4 ∧ 34 ≤ frame.length ∧ srcIp frame = ip ∧
      5 ≤ Firewall.ihl frame ∧ proto frame = protoTcp ∧ transportOffset frame + 14 ≤ frame.length ∧
      tcpFlags frame &&& tcpSyn ≠ 0 ∧ tcpFlags frame &&& tcpAck = 0 ∧ dstPort frame ≠ 2222)
    ⟨fun ⟨h₁, h₂, h₃, h₄, h₅, h₆, h₇, h₈, h₉⟩ => ⟨h₁, h₂, h₃, h₄, h₅, h₆, h₇, h₈, h₉⟩,
      fun h => ⟨h.ipv4, h.header, h.source, h.ihl, h.tcp, h.complete, h.syn, h.noAck, h.port⟩⟩

variable {entries : List Attempts} {now : Nat}

/-- A packet of a blocked address is dropped, and the table does not see it. -/
theorem filterPacket_blocked {frame : Frame} (hg : Guarded frame ip) (hb : isBlocked entries ip now = true) :
    filterPacket entries frame now = (.drop, entries) := by
  have hsource := hg.source
  unfold filterPacket
  rw [if_neg (by have := hg.header; omega), if_neg (by rw [hg.ipv4]; decide), if_neg (by simp [hg.ipv4]),
    if_neg (by have := hg.header; omega)]
  split
  · rfl
  · rw [if_neg hg.notIcmp]
    split
    · rfl
    · rw [if_neg hg.notUdp, filterGuarded, if_pos (by rw [hsource]; exact hb)]

/-- A disallowed attempt of an address that is not blocked is dropped and recorded. -/
theorem filterPacket_attempt {frame : Frame} (hd : Disallowed frame ip) (hb : isBlocked entries ip now = false) :
    filterPacket entries frame now = (.drop, recordSynAttempt entries ip now) := by
  have hsource := hd.source
  have hcomplete := hd.complete
  unfold filterPacket
  rw [if_neg (by have := hd.header; omega), if_neg (by rw [hd.ipv4]; decide), if_neg (by simp [hd.ipv4]),
    if_neg (by have := hd.header; omega), if_neg (by have := hd.ihl; omega), if_neg hd.guarded.notIcmp,
    if_neg (by omega), if_neg hd.guarded.notUdp, filterGuarded, if_neg (by rw [hsource, hb]; decide), if_pos hd.tcp,
    if_neg (by omega), if_pos ⟨hd.syn, hd.noAck⟩, if_neg hd.port, hsource]

/-- A packet is decided by its headers alone, or it is an IPv4 packet that the table and the flags decide. -/
theorem filterPacket_cases (entries : List Attempts) (frame : Frame) (now : Nat) :
    (filterPacket entries frame now).2 = entries ∨
      (be16 frame 12 = ethertypeIpv4 ∧ 34 ≤ frame.length ∧ 5 ≤ ihl frame ∧
        filterPacket entries frame now = filterGuarded entries frame now) := by
  by_cases hipv4 : be16 frame 12 = ethertypeIpv4
  · by_cases hheader : 34 ≤ frame.length
    · by_cases hihl : 5 ≤ ihl frame
      · unfold filterPacket
        rw [if_neg (by omega), if_neg (by rw [hipv4]; decide), if_neg (not_not.mpr hipv4), if_neg (by omega),
          if_neg (by omega)]
        split
        · exact Or.inl rfl
        · split
          · exact Or.inl rfl
          · split
            · exact Or.inl rfl
            · exact Or.inr ⟨hipv4, hheader, hihl, rfl⟩
      · refine Or.inl ?_
        unfold filterPacket
        rw [if_neg (by omega), if_neg (by rw [hipv4]; decide), if_neg (not_not.mpr hipv4), if_neg (by omega),
          if_pos (by omega)]
    · refine Or.inl ?_
      unfold filterPacket
      split
      · rfl
      · rw [if_neg (by rw [hipv4]; decide), if_neg (not_not.mpr hipv4), if_pos (by omega)]
  · refine Or.inl ?_
    unfold filterPacket
    simp only [ne_eq, hipv4, not_false_eq_true, if_true]
    split
    · rfl
    · split <;> rfl

/-- Only a disallowed attempt of an address that is not blocked changes the table. -/
theorem filterPacket_table (entries : List Attempts) (frame : Frame) (now : Nat) :
    (filterPacket entries frame now).2 = entries ∨
      (Disallowed frame (srcIp frame) ∧ isBlocked entries (srcIp frame) now = false ∧
        (filterPacket entries frame now).2 = recordSynAttempt entries (srcIp frame) now) := by
  rcases filterPacket_cases entries frame now with hsame | ⟨hipv4, hheader, hihl, heq⟩
  · exact Or.inl hsame
  · rw [heq]
    unfold filterGuarded
    split
    · exact Or.inl rfl
    rename_i hblocked
    split
    · rename_i htcp
      split
      · exact Or.inl rfl
      rename_i hcomplete
      split
      · rename_i hflags
        split
        · exact Or.inl rfl
        · rename_i hport
          exact Or.inr ⟨⟨hipv4, hheader, rfl, hihl, htcp, Nat.le_of_not_lt hcomplete, hflags.1, hflags.2, hport⟩,
            Bool.eq_false_iff.mpr hblocked, rfl⟩
      · exact Or.inl rfl
    · exact Or.inl rfl

/-! ## What an attempt does to the table -/

/-- The addresses of the table are distinct and there are at most sixteen. -/
structure WellFormed (entries : List Attempts) : Prop where
  bounded : entries.length ≤ maxBlocklist
  distinct : (entries.map (·.ip)).Nodup

/-- The address of an entry is not tracked twice. -/
theorem WellFormed.others {pre post : List Attempts} {e e' : Attempts} (h : WellFormed (pre ++ e :: post))
    (he' : e' ∈ pre ++ post) : e'.ip ≠ e.ip := by
  have hdistinct := h.distinct
  rw [map_append, map_cons, nodup_middle, nodup_cons, ← map_append] at hdistinct
  intro heq
  exact hdistinct.1 (heq ▸ mem_map_of_mem he')

theorem Attempts.bump_ip (e : Attempts) (now : Nat) : (e.bump now).ip = e.ip := by
  unfold Attempts.bump
  split <;> rfl

theorem bumpTracked_none : bumpTracked ip now entries = none ↔ ∀ e ∈ entries, e.ip ≠ ip := by
  induction entries with
  | nil => simp [bumpTracked]
  | cons e es ih =>
    by_cases he : e.ip = ip
    · simp [bumpTracked, he]
    · simp [bumpTracked, he, ih]

/-- A tracked address: its entry is bumped, the others stay. -/
theorem bumpTracked_some {entries entries' : List Attempts} (h : bumpTracked ip now entries = some entries') :
    ∃ pre e post, entries = pre ++ e :: post ∧ e.ip = ip ∧ entries' = pre ++ e.bump now :: post := by
  induction entries generalizing entries' with
  | nil => cases h
  | cons e es ih =>
    by_cases he : e.ip = ip
    · simp only [bumpTracked, if_pos he, Option.some.injEq] at h
      exact ⟨[], e, es, rfl, he, h.symm⟩
    · simp only [bumpTracked, if_neg he, Option.map_eq_some_iff] at h
      obtain ⟨es', hes, rfl⟩ := h
      obtain ⟨pre, e', post, rfl, hip, rfl⟩ := ih hes
      exact ⟨e :: pre, e', post, rfl, hip, rfl⟩

/-- The victim blocks nobody. -/
theorem victimFrom_evictable (entries : List Attempts) (i : Nat) (victim : Option Nat) (rank : Nat) {v : Nat}
    (h : victimFrom now i entries victim rank = some v) :
    victim = some v ∨ ∃ e, i ≤ v ∧ entries[v - i]? = some e ∧ e.Evictable now := by
  induction entries generalizing i victim rank with
  | nil => exact Or.inl h
  | cons e es ih =>
    simp only [victimFrom] at h
    split at h
    · next hc =>
      rcases ih (i + 1) (some i) (e.rank now) h with hv | ⟨e', hle, hget, hev⟩
      · obtain rfl : i = v := Option.some.inj hv
        exact Or.inr ⟨e, Nat.le_refl i, by simp, hc.1⟩
      · refine Or.inr ⟨e', by omega, ?_, hev⟩
        rw [show v - i = (v - (i + 1)) + 1 from by omega, getElem?_cons_succ]
        exact hget
    · rcases ih (i + 1) victim rank h with hv | ⟨e', hle, hget, hev⟩
      · exact Or.inl hv
      · refine Or.inr ⟨e', by omega, ?_, hev⟩
        rw [show v - i = (v - (i + 1)) + 1 from by omega, getElem?_cons_succ]
        exact hget

/-- **The four ways an attempt is recorded.** -/
theorem recordSynAttempt_cases (entries : List Attempts) (ip : Ip) (now : Nat) :
    (∃ pre e post, entries = pre ++ e :: post ∧ e.ip = ip ∧
      recordSynAttempt entries ip now = pre ++ e.bump now :: post) ∨ ((∀ e ∈ entries, e.ip ≠ ip) ∧
      ((entries.length < maxBlocklist ∧ recordSynAttempt entries ip now = entries ++ [⟨ip, 1, now⟩]) ∨
      (∃ pre e post, entries = pre ++ e :: post ∧ e.Evictable now ∧
        recordSynAttempt entries ip now = pre ++ ⟨ip, 1, now⟩ :: post) ∨
      recordSynAttempt entries ip now = entries)) := by
  cases hb : bumpTracked ip now entries with
  | some entries' =>
    have hrec : recordSynAttempt entries ip now = entries' := by simp only [recordSynAttempt, hb]
    obtain ⟨pre, e, post, hsplit, hip, rfl⟩ := bumpTracked_some hb
    exact Or.inl ⟨pre, e, post, hsplit, hip, hrec⟩
  | none =>
    refine Or.inr ⟨bumpTracked_none.mp hb, ?_⟩
    simp only [recordSynAttempt, hb]
    by_cases hroom : entries.length < maxBlocklist
    · rw [if_pos hroom]
      exact Or.inl ⟨hroom, rfl⟩
    · rw [if_neg hroom]
      cases hv : victimFrom now 0 entries none 255 with
      | none => exact Or.inr (Or.inr rfl)
      | some v =>
        refine Or.inr (Or.inl ?_)
        rcases victimFrom_evictable entries 0 none 255 hv with hnone | ⟨e, _, hget, hev⟩
        · cases hnone
        · rw [Nat.sub_zero] at hget
          obtain ⟨hlt, he⟩ := List.getElem?_eq_some_iff.mp hget
          refine ⟨entries.take v, e, entries.drop (v + 1), ?_, hev, ?_⟩
          · rw [← he, getElem_cons_drop, take_append_drop]
          · exact set_eq_take_append_cons_drop.trans (if_pos hlt)

theorem WellFormed.record (h : WellFormed entries) (ip : Ip) (now : Nat) :
    WellFormed (recordSynAttempt entries ip now) := by
  obtain ⟨hbounded, hdistinct⟩ := h
  rcases recordSynAttempt_cases entries ip now with ⟨pre, e, post, rfl, _, hrec⟩ |
    ⟨hnew, ⟨hroom, hrec⟩ | ⟨pre, e, post, rfl, _, hrec⟩ | hrec⟩
  · rw [hrec]
    refine ⟨by simpa using hbounded, ?_⟩
    simpa [Attempts.bump_ip] using hdistinct
  · rw [hrec]
    refine ⟨by rw [length_append, length_singleton]; omega, ?_⟩
    rw [map_append, nodup_append]
    refine ⟨hdistinct, nodup_singleton _, ?_⟩
    intro a ha b hb hab
    obtain ⟨e, he, rfl⟩ := mem_map.mp ha
    simp only [map_cons, map_nil, mem_singleton] at hb
    exact hnew e he (hab.trans hb)
  · rw [hrec]
    refine ⟨by simpa using hbounded, ?_⟩
    rw [map_append, map_cons] at hdistinct ⊢
    rw [nodup_middle] at hdistinct ⊢
    refine nodup_cons.mpr ⟨?_, (nodup_cons.mp hdistinct).2⟩
    intro hmem
    rw [← map_append] at hmem
    obtain ⟨e', he', hip⟩ := mem_map.mp hmem
    exact hnew e' (perm_middle.mem_iff.mpr (mem_cons_of_mem _ he')) hip
  · rw [hrec]
    exact ⟨hbounded, hdistinct⟩

/-- An entry after an attempt: another address's, the address's own with the attempt counted, or a new one. -/
theorem WellFormed.mem_record (h : WellFormed entries) {ip : Ip} {now : Nat} {e : Attempts}
    (he : e ∈ recordSynAttempt entries ip now) :
    (e ∈ entries ∧ e.ip ≠ ip) ∨ (∃ e' ∈ entries, e'.ip = ip ∧ e = e'.bump now) ∨ e = ⟨ip, 1, now⟩ := by
  rcases recordSynAttempt_cases entries ip now with ⟨pre, e', post, rfl, hip, hrec⟩ |
    ⟨hnew, ⟨_, hrec⟩ | ⟨pre, e', post, rfl, _, hrec⟩ | hrec⟩
  · rw [hrec] at he
    rcases mem_cons.mp (perm_middle.mem_iff.mp he) with rfl | hrest
    · exact .inr (.inl ⟨e', mem_append_right _ mem_cons_self, hip, rfl⟩)
    · exact .inl ⟨perm_middle.mem_iff.mpr (mem_cons_of_mem _ hrest), hip ▸ h.others hrest⟩
  · rw [hrec] at he
    rcases mem_append.mp he with hold | hone
    · exact .inl ⟨hold, hnew e hold⟩
    · exact .inr (.inr (mem_singleton.mp hone))
  · rw [hrec] at he
    rcases mem_cons.mp (perm_middle.mem_iff.mp he) with rfl | hrest
    · exact .inr (.inr rfl)
    · have hold := perm_middle.mem_iff.mpr (mem_cons_of_mem e' hrest)
      exact .inl ⟨hold, hnew e hold⟩
  · rw [hrec] at he
    exact .inl ⟨he, hnew e he⟩

/-! ## A block that has not expired stays -/

/-- The entry blocks its address at time `now`. -/
def Attempts.Blocks (e : Attempts) (now : Nat) : Prop := 3 ≤ e.count ∧ now < e.lastSeen + blockDurationMs

variable {e : Attempts}

theorem Attempts.Blocks.not_evictable (h : e.Blocks now) : ¬ e.Evictable now := by
  obtain ⟨hcount, htime⟩ := h
  rintro (hlow | ⟨_, hexpired⟩)
  · omega
  · simp only [blockDurationMs] at *
    omega

theorem isBlocked_of_mem (hmem : e ∈ entries) (h : e.Blocks now) : isBlocked entries e.ip now = true := by
  obtain ⟨hcount, htime⟩ := h
  have hopen : now - e.lastSeen < blockDurationMs := by
    simp only [blockDurationMs] at *
    omega
  exact any_eq_true.mpr ⟨e, hmem, by simp [hcount, hopen]⟩

/-- **Nobody's packet touches a block that has not expired.** -/
theorem Attempts.Blocks.step (hmem : e ∈ entries)
    (h : e.Blocks now) (frame : Frame) : e ∈ (filterPacket entries frame now).2 := by
  rcases filterPacket_table entries frame now with hsame | ⟨_, hfree, htable⟩
  · rw [hsame]
    exact hmem
  · -- the recorded address is another one
    have hne : e.ip ≠ srcIp frame := by
      intro he
      rw [← he, isBlocked_of_mem hmem h] at hfree
      cases hfree
    rw [htable]
    rcases recordSynAttempt_cases entries (srcIp frame) now with ⟨pre, e', post, rfl, hip, hrec⟩ |
      ⟨_, ⟨_, hrec⟩ | ⟨pre, e', post, rfl, hev, hrec⟩ | hrec⟩
    · rw [hrec]
      rcases mem_cons.mp (perm_middle.mem_iff.mp hmem) with rfl | hrest
      · exact absurd hip hne
      · exact perm_middle.mem_iff.mpr (mem_cons_of_mem _ hrest)
    · rw [hrec]
      exact mem_append_left _ hmem
    · rw [hrec]
      rcases mem_cons.mp (perm_middle.mem_iff.mp hmem) with rfl | hrest
      · exact absurd hev h.not_evictable
      · exact perm_middle.mem_iff.mpr (mem_cons_of_mem _ hrest)
    · rw [hrec]
      exact hmem

/-! ## What follows an attempt -/

/-- The time stamps do not decrease, from `now` on. -/
def Chronological : Nat → List (Nat × Frame) → Prop
  | _, [] => True
  | now, (t, _) :: rest => now ≤ t ∧ Chronological t rest

/-- Every guarded packet of the address that comes before `limit` is dropped. -/
def DropsUntil (ip : Ip) (limit : Nat) : List Attempts → List (Nat × Frame) → Prop
  | _, [] => True
  | entries, (t, frame) :: rest =>
    (t < limit → Guarded frame ip → (filterPacket entries frame t).1 = .drop) ∧
      DropsUntil ip limit (filterPacket entries frame t).2 rest

theorem dropsUntil_of_late {limit : Nat} (frames : List (Nat × Frame)) {now : Nat} (hnow : limit ≤ now)
    (entries : List Attempts) (h : Chronological now frames) : DropsUntil ip limit entries frames := by
  induction frames generalizing now entries with
  | nil => trivial
  | cons f rest ih =>
    obtain ⟨t, frame⟩ := f
    obtain ⟨hle, hrest⟩ := h
    refine ⟨fun ht => by omega, ih (by omega) _ hrest⟩

/-- **A blocking entry drops everything until it expires**, whatever frames follow. -/
theorem dropsUntil_of_mem (hcount : 3 ≤ e.count) (frames : List (Nat × Frame)) {now : Nat}
    {entries : List Attempts} (hmem : e ∈ entries) (h : Chronological now frames) :
    DropsUntil e.ip (e.lastSeen + blockDurationMs) entries frames := by
  induction frames generalizing now entries with
  | nil => trivial
  | cons f rest ih =>
    obtain ⟨t, frame⟩ := f
    obtain ⟨hle, hrest⟩ := h
    by_cases ht : t < e.lastSeen + blockDurationMs
    · refine ⟨?_, ih (Attempts.Blocks.step hmem ⟨hcount, ht⟩ frame) hrest⟩
      intro _ hguarded
      rw [filterPacket_blocked hguarded (isBlocked_of_mem hmem ⟨hcount, ht⟩)]
    · exact dropsUntil_of_late ((t, frame) :: rest) (Nat.le_of_not_lt ht) entries ⟨Nat.le_refl t, hrest⟩

/-! ## Runs -/

/-- The table and its history. -/
structure World where
  entries : List Attempts
  clock : Nat
  /-- when each address sent disallowed attempts, the last one first -/
  sent : Ip → List Nat
  /-- when an attempt of each address was last recorded -/
  recorded : Ip → Option Nat

/-- At boot nobody has sent anything. -/
def World.start : World := { entries := [], clock := 0, sent := fun _ => [], recorded := fun _ => none }

/-- A frame arrives. -/
def World.step (w : World) (now : Nat) (frame : Frame) : World :=
  let ip := srcIp frame
  { entries := (filterPacket w.entries frame now).2
    clock := now
    sent := if Disallowed frame ip then update w.sent ip (now :: w.sent ip) else w.sent
    recorded := if Disallowed frame ip ∧ isBlocked w.entries ip now = false then
      update w.recorded ip (some now) else w.recorded }

/-- The states reached with a clock that does not go back. -/
inductive Reach : World → Prop where
  | start : Reach .start
  | step {w : World} (h : Reach w) {now : Nat} (hnow : w.clock ≤ now) (frame : Frame) : Reach (w.step now frame)

/-- The entries carry the times of the last recorded attempts. -/
structure Inv (w : World) : Prop where
  wellFormed : WellFormed w.entries
  recorded : ∀ e ∈ w.entries, w.recorded e.ip = some e.lastSeen

theorem Attempts.bump_lastSeen (e : Attempts) (now : Nat) : (e.bump now).lastSeen = now := by
  unfold Attempts.bump
  split <;> rfl

/-- The three kinds of step: no attempt, a blocked attempt, a recorded one. -/
theorem World.step_cases (w : World) (now : Nat) (frame : Frame) :
    ((w.step now frame).entries = w.entries ∧ (w.step now frame).recorded = w.recorded) ∨
    (Disallowed frame (srcIp frame) ∧ isBlocked w.entries (srcIp frame) now = false ∧
      (w.step now frame).entries = recordSynAttempt w.entries (srcIp frame) now ∧
      (w.step now frame).recorded = update w.recorded (srcIp frame) (some now)) := by
  by_cases hd : Disallowed frame (srcIp frame)
  · cases hb : isBlocked w.entries (srcIp frame) now with
    | true =>
      refine Or.inl ⟨?_, ?_⟩
      · simp only [World.step, filterPacket_blocked hd.guarded hb]
      · simp [World.step, hb]
    | false =>
      refine Or.inr ⟨hd, rfl, ?_, ?_⟩
      · simp only [World.step, filterPacket_attempt hd hb]
      · simp only [World.step, hd, hb, and_self, if_true]
  · refine Or.inl ⟨?_, ?_⟩
    · rcases filterPacket_table w.entries frame now with hsame | ⟨hd', _⟩
      · exact hsame
      · exact absurd hd' hd
    · simp only [World.step, hd, false_and, if_false]

theorem Inv.step {w : World} (h : Inv w) (now : Nat) (frame : Frame) : Inv (w.step now frame) := by
  rcases w.step_cases now frame with ⟨hentries, hrecorded⟩ | ⟨_, _, hentries, hrecorded⟩
  · refine ⟨hentries ▸ h.wellFormed, ?_⟩
    rw [hentries, hrecorded]
    exact h.recorded
  · refine ⟨hentries ▸ h.wellFormed.record (srcIp frame) now, ?_⟩
    rw [hentries, hrecorded]
    intro e he
    -- an entry of another address is an old one, the address's own has the new time
    rcases h.wellFormed.mem_record he with ⟨hold, hne⟩ | ⟨e', _, hip, rfl⟩ | rfl
    · rw [update_of_ne hne]
      exact h.recorded e hold
    · rw [Attempts.bump_ip, hip, update_self, Attempts.bump_lastSeen]
    · exact update_self ..

theorem Reach.inv {w : World} (h : Reach w) : Inv w := by
  induction h with
  | start => exact ⟨⟨by decide, nodup_nil⟩, fun e he => by cases he⟩
  | step _ _ frame ih => exact ih.step _ frame

/-- **The table stays small**, whatever frames arrive, and whatever the clock says. -/
theorem table_bounded (frames : List (Nat × Frame)) :
    WellFormed (frames.foldl (fun entries f => (filterPacket entries f.2 f.1).2) []) := by
  refine foldlRecOn frames _ ⟨by decide, nodup_nil⟩ fun entries h f _ => ?_
  rcases filterPacket_table entries f.2 f.1 with hsame | ⟨-, -, hrec⟩
  · rw [hsame]
    exact h
  · rw [hrec]
    exact h.record _ _

/-! ## The third attempt -/

/-- The table has counted two attempts of the address, or more, and no block of it has run out. -/
def Counted (entries : List Attempts) (ip : Ip) (now : Nat) : Prop :=
  ∃ e ∈ entries, e.ip = ip ∧ 2 ≤ e.count ∧ ¬ e.Expired now

/-- A blocked address is counted, by the entry that blocks it. -/
theorem mem_of_isBlocked (h : isBlocked entries ip now = true) :
    ∃ e ∈ entries, e.ip = ip ∧ 3 ≤ e.count ∧ now - e.lastSeen < blockDurationMs := by
  obtain ⟨e, hmem, he⟩ := any_eq_true.mp h
  simp only [Bool.and_eq_true, decide_eq_true_eq] at he
  exact ⟨e, hmem, he.1.1, he.1.2, he.2⟩

/-- An attempt that was counted as the third, or later, leaves a blocking entry. -/
theorem recorded_blocks (hw : WellFormed entries) {ip : Ip} {now : Nat} (h : Counted entries ip now) :
    ∃ e ∈ recordSynAttempt entries ip now, e.ip = ip ∧ 3 ≤ e.count ∧ e.lastSeen = now := by
  obtain ⟨e, hmem, hip, hcount, hexpired⟩ := h
  rcases recordSynAttempt_cases entries ip now with ⟨pre, e', post, rfl, hip', hrec⟩ | ⟨hnew, _⟩
  · obtain rfl : e = e' := by
      rcases mem_cons.mp (perm_middle.mem_iff.mp hmem) with rfl | hrest
      · rfl
      · exact absurd (hip.trans hip'.symm) (hw.others hrest)
    refine ⟨e.bump now, ?_, by rw [Attempts.bump_ip, hip], ?_, Attempts.bump_lastSeen e now⟩
    · rw [hrec]
      exact mem_append_right _ mem_cons_self
    · rw [Attempts.bump, if_neg hexpired]
      change 3 ≤ min (e.count + 1) 255
      omega
  · exact absurd hip (hnew e hmem)

/-- An attempt that was not counted so leaves the address unblocked. -/
theorem recorded_free (hw : WellFormed entries) {ip : Ip} {now : Nat}
    (h : ¬ Counted entries ip now) : isBlocked (recordSynAttempt entries ip now) ip now = false := by
  rw [Bool.eq_false_iff]
  intro hb
  obtain ⟨e, hmem, hip, hcount, hopen⟩ := mem_of_isBlocked hb
  rcases hw.mem_record hmem with ⟨-, hne⟩ | ⟨e', hmem', hip', rfl⟩ | rfl
  · exact hne hip
  · -- the old entry would have been counted
    refine h ⟨e', hmem', hip', ?_, ?_⟩
    · unfold Attempts.bump at hcount
      split at hcount
      · change 3 ≤ 1 at hcount
        omega
      · change 3 ≤ min (e'.count + 1) 255 at hcount
        omega
    · intro hexpired
      rw [Attempts.bump, if_pos hexpired] at hcount
      change 3 ≤ 1 at hcount
      omega
  · change 3 ≤ 1 at hcount
    omega

/-- A TCP packet of the address with the ACK flag. -/
def ackFrame (ip : Ip) : Frame :=
  List.replicate 12 0 ++ [8, 0] ++ (0x45 :: List.replicate 8 0) ++ [6, 0, 0, ip.1, ip.2.1, ip.2.2.1, ip.2.2.2] ++
    List.replicate 17 0 ++ [0x10]

theorem ackFrame_length (ip : Ip) : (ackFrame ip).length = 48 := rfl

theorem ackFrame_ihl (ip : Ip) : ihl (ackFrame ip) = 5 := by
  have h14 : byte (ackFrame ip) 14 = 0x45 := rfl
  rw [ihl, h14]
  decide

theorem ackFrame_guarded (ip : Ip) : Guarded (ackFrame ip) ip := by
  have h12 : byte (ackFrame ip) 12 = 8 := rfl
  have h13 : byte (ackFrame ip) 13 = 0 := rfl
  have h23 : proto (ackFrame ip) = 6 := rfl
  refine ⟨?_, by rw [ackFrame_length]; decide, rfl, by rw [h23]; decide, by rw [h23]; decide⟩
  rw [be16, h12, h13]
  decide

/-- An address that is not blocked gets the packet through. -/
theorem filterPacket_ackFrame
    (h : isBlocked entries ip now = false) : (filterPacket entries (ackFrame ip) now).1 = .allow := by
  have hg := ackFrame_guarded ip
  have hoffset : transportOffset (ackFrame ip) = 34 := by rw [transportOffset, ackFrame_ihl]
  have hflags : tcpFlags (ackFrame ip) = 0x10 := by
    rw [tcpFlags, hoffset]
    rfl
  have htcp : proto (ackFrame ip) = protoTcp := rfl
  rw [filterPacket, if_neg (by rw [ackFrame_length]; decide), if_neg (by rw [hg.ipv4]; decide),
    if_neg (not_not.mpr hg.ipv4), if_neg (by rw [ackFrame_length]; decide), if_neg (by rw [ackFrame_ihl]; decide),
    if_neg hg.notIcmp, if_neg (by rw [ackFrame_length, hoffset]; decide), if_neg hg.notUdp, filterGuarded,
    hg.source, if_neg (by rw [h]; decide), if_pos htcp, if_neg (by rw [ackFrame_length, hoffset]; decide),
    if_neg (by rw [hflags]; decide)]

/-- The address sends an attempt after two others, with less than 120 seconds between consecutive ones. -/
structure ThirdAttempt (w : World) (now : Nat) (frame : Frame) (ip : Ip) : Prop where
  later : w.clock ≤ now
  disallowed : Disallowed frame ip
  close : ∃ second first earlier, w.sent ip = second :: first :: earlier ∧
    now - second < blockDurationMs ∧ second - first < blockDurationMs

/-- **Blocked hosts.**  After the third of three attempts, every guarded packet of the address is dropped until
    120 seconds after its last recorded attempt, whatever frames follow, iff the table counted the attempts
    before it. -/
theorem third_attempt_blocks_iff {w : World} (h : Reach w) {now : Nat} {frame : Frame} {ip : Ip}
    (ht : ThirdAttempt w now frame ip) :
    (∀ last, (w.step now frame).recorded ip = some last → ∀ frames, Chronological now frames →
      DropsUntil ip (last + blockDurationMs) (w.step now frame).entries frames) ↔ Counted w.entries ip now := by
  have hinv := h.inv
  have hd := ht.disallowed
  have hsource := hd.source
  subst hsource
  cases hb : isBlocked w.entries (srcIp frame) now with
  | true =>
    -- the attempt is dropped by the block, which stays
    obtain ⟨e, hmem, hip, hcount, hopen⟩ := mem_of_isBlocked hb
    have hcounted : Counted w.entries (srcIp frame) now := by
      refine ⟨e, hmem, hip, by omega, ?_⟩
      rintro ⟨_, hexpired⟩
      omega
    refine ⟨fun _ => hcounted, fun _ => ?_⟩
    rcases w.step_cases now frame with ⟨hentries, hrecorded⟩ | ⟨_, hfree, _⟩
    · intro last hlast frames hframes
      rw [hrecorded, ← hip, hinv.recorded e hmem] at hlast
      cases hlast
      rw [hentries, ← hip]
      exact dropsUntil_of_mem hcount frames hmem hframes
    · rw [hb] at hfree
      cases hfree
  | false =>
    obtain ⟨hentries, hrecorded⟩ :
        (w.step now frame).entries = recordSynAttempt w.entries (srcIp frame) now ∧
        (w.step now frame).recorded (srcIp frame) = some now := by
      refine ⟨by simp only [World.step, filterPacket_attempt hd hb], ?_⟩
      simp only [World.step, hd, hb, and_self, if_true, update_self]
    constructor
    · intro hdrops
      by_contra hcounted
      -- the very next packet of the address is allowed
      have hfree := recorded_free hinv.wellFormed hcounted
      have hdrop := (hdrops now hrecorded [(now, ackFrame (srcIp frame))] ⟨Nat.le_refl now, trivial⟩).1
        (Nat.lt_add_of_pos_right (by decide)) (ackFrame_guarded (srcIp frame))
      rw [hentries, filterPacket_ackFrame hfree] at hdrop
      cases hdrop
    · intro hcounted last hlast frames hframes
      rw [hrecorded] at hlast
      cases hlast
      obtain ⟨e, hmem, hip, hcount, hseen⟩ := recorded_blocks hinv.wellFormed hcounted
      have hdrops := dropsUntil_of_mem hcount frames hmem hframes
      rw [hip, hseen] at hdrops
      rw [hentries]
      exact hdrops

/-! ## Runs on fixed frames -/

/-- A sequence of frames with their times. -/
def World.run (w : World) (frames : List (Nat × Frame)) : World := frames.foldl (fun w f => w.step f.1 f.2) w

theorem Reach.run {w : World} (h : Reach w) (frames : List (Nat × Frame)) (hframes : Chronological w.clock frames) :
    Reach (w.run frames) := by
  induction frames generalizing w with
  | nil => exact h
  | cons f rest ih => exact ih (h.step hframes.1 f.2) hframes.2

/-- A TCP packet of the address with the SYN flag, for port 0. -/
def synFrame (ip : Ip) : Frame := (ackFrame ip).set 47 0x02

/-- A host of the local network. -/
def host (n : UInt8) : Ip := (10, 0, 0, n)

/-- Two attempts of one host. -/
def twice : World := World.start.run [(1, synFrame (host 1)), (2, synFrame (host 1))]

instance : (now : Nat) → (frames : List (Nat × Frame)) → Decidable (Chronological now frames)
  | _, [] => inferInstanceAs (Decidable True)
  | _, (t, _) :: rest =>
    have := instDecidableChronological t rest
    inferInstanceAs (Decidable (_ ∧ _))

/-- A host that is alone is blocked by its third attempt. -/
theorem third_attempt_blocks_twice :
    DropsUntil (host 1) (3 + blockDurationMs) (twice.step 3 (synFrame (host 1))).entries
      [(4, ackFrame (host 1)), (120002, ackFrame (host 1))] := by
  have hreach : Reach twice := Reach.start.run _ (by decide)
  have hthird : ThirdAttempt twice 3 (synFrame (host 1)) (host 1) :=
    ⟨by decide +kernel, by decide +kernel, 2, 1, [], by decide +kernel, by decide, by decide⟩
  refine (third_attempt_blocks_iff hreach hthird).mpr ?_ 3 (by decide +kernel) _ (by decide)
  exact ⟨⟨host 1, 2, 2⟩, by decide +kernel, rfl, by decide, by decide⟩

/-- Two attempts of one host, two of each of fifteen others, and one of a seventeenth. -/
def crowded : World :=
  World.start.run ((List.range 16).flatMap (fun n => [(n, synFrame (host (UInt8.ofNat n))),
    (n, synFrame (host (UInt8.ofNat n)))]) ++ [(16, synFrame (host 16))])

/-- Three attempts of one host, and three more while it is blocked. -/
def persistent : World :=
  World.start.run ([1, 2, 3, 100000, 120001, 120002].map fun t => (t, synFrame (host 1)))

/-- **A third attempt that does not block.**  The host's count was evicted by other hosts; or the host went on
    sending attempts while it was blocked, and its count starts again when the block ends. -/
theorem third_attempt_passes : (Reach crowded ∧ ThirdAttempt crowded 17 (synFrame (host 0)) (host 0) ∧
      (crowded.step 17 (synFrame (host 0))).recorded (host 0) = some 17 ∧ Guarded (ackFrame (host 0)) (host 0) ∧
      (filterPacket (crowded.step 17 (synFrame (host 0))).entries (ackFrame (host 0)) 18).1 = .allow) ∧
    (Reach persistent ∧ ThirdAttempt persistent 120003 (synFrame (host 1)) (host 1) ∧
      (persistent.step 120003 (synFrame (host 1))).recorded (host 1) = some 120003 ∧
      Guarded (ackFrame (host 1)) (host 1) ∧
      (filterPacket (persistent.step 120003 (synFrame (host 1))).entries (ackFrame (host 1)) 120004).1 = .allow) := by
  refine ⟨⟨Reach.start.run _ (by decide +kernel), ⟨by decide +kernel, by decide +kernel, 0, 0, [], ?_⟩,
    by decide +kernel, ackFrame_guarded _, by decide +kernel⟩, ⟨Reach.start.run _ (by decide +kernel),
    ⟨by decide +kernel, by decide +kernel, 120002, 120001, [100000, 3, 2, 1], ?_⟩, by decide +kernel,
    ackFrame_guarded _, by decide +kernel⟩⟩
  · decide +kernel
  · decide +kernel

end Folkering.Firewall
