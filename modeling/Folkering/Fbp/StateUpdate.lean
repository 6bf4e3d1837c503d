/-
  State updates of the Folkering Binary Protocol.

  The proxy packs a list of UI nodes into a header, a pool of interned strings and one 48-byte record for each node;
  the browser casts the records back and resolves their strings against the pool.

  1. **Program** — `intern`, `serializeStateUpdate`, `parseStateUpdate`, `tag` and `text`, over byte strings.
  2. **The crux** (`intern_resolves`) — whatever the hash, a string that is found in the pool is found exactly; a new
     one is cut at 65535 bytes, since an entry's length is a `u16`, although a record has 32 bits for a text.
  3. `round_trips_iff` — so the nodes come back exactly when no text is longer, and there are fewer than 2³² of them.
-/
import Mathlib
import Folkering.Fs.FolkPack

namespace Folkering.Fbp

open LittleEndian Layout FolkPack List

/-- A byte string. -/
abbrev Bytes := List UInt8

/-- The first word of a message, `FOLK`. -/
def fbpMagic : Nat := 0x4B4C4F46
/-- The type of a state update. -/
def msgDomStateUpdate : Nat := 0x01
/-- The bytes of the header. -/
def headerSize : Nat := 32
/-- The bytes of a node record. -/
def nodeSize : Nat := 48

/-! ## Nodes -/

/-- What a node has besides its strings; an `i32` is given by its bits. -/
structure Attrs where
  flags : UInt16
  parent : UInt32
  firstChild : UInt32
  lastChild : UInt32
  nextSibling : UInt32
  boundsX : UInt32
  boundsY : UInt32
  boundsW : UInt32
  boundsH : UInt32
deriving Repr, DecidableEq

/-- A node with strings of its own, as the sender has it. -/
structure OwnedNode extends Attrs where
  tag : Bytes
  text : Bytes
deriving Repr, DecidableEq

/-- A node of the wire, with its strings as places in the pool. -/
structure SemanticNode extends Attrs where
  tagOffset : Nat
  tagLen : Nat
  textOffset : Nat
  textLen : Nat
deriving Repr, DecidableEq

/-- The record of a node. -/
def SemanticNode.bytes (n : SemanticNode) : Bytes :=
  leBytes 4 n.tagOffset ++ (leBytes 2 n.tagLen ++ (leBytes 2 n.flags.toNat ++ (leBytes 4 n.textOffset ++
    (leBytes 4 n.textLen ++ (leBytes 4 n.parent.toNat ++ (leBytes 4 n.firstChild.toNat ++
    (leBytes 4 n.lastChild.toNat ++ (leBytes 4 n.nextSibling.toNat ++ (leBytes 4 n.boundsX.toNat ++
    (leBytes 4 n.boundsY.toNat ++ (leBytes 4 n.boundsW.toNat ++ leBytes 4 n.boundsH.toNat)))))))))))

/-- A record, cast. -/
def nodeAt (mem : Nat → UInt8) (p : Nat) : SemanticNode where
  tagOffset := leAt mem p 4
  tagLen := leAt mem (p + 4) 2
  flags := .ofNat (leAt mem (p + 6) 2)
  textOffset := leAt mem (p + 8) 4
  textLen := leAt mem (p + 12) 4
  parent := .ofNat (leAt mem (p + 16) 4)
  firstChild := .ofNat (leAt mem (p + 20) 4)
  lastChild := .ofNat (leAt mem (p + 24) 4)
  nextSibling := .ofNat (leAt mem (p + 28) 4)
  boundsX := .ofNat (leAt mem (p + 32) 4)
  boundsY := .ofNat (leAt mem (p + 36) 4)
  boundsW := .ofNat (leAt mem (p + 40) 4)
  boundsH := .ofNat (leAt mem (p + 44) 4)

/-! ## The serializer -/

/-- The 64-bit FNV-1a hash. -/
def fnv1a (bytes : Bytes) : UInt64 := bytes.foldl (fun h b => (h ^^^ b.toUInt64) * 0x100000001b3) 0xcbf29ce484222325

/-- Where an interned string lies, with its hash. -/
structure Entry where
  hash : UInt64
  offset : Nat
  len : Nat

/-- The string pool and the index of what is in it. -/
structure StringInterner where
  buf : Bytes := []
  entries : List Entry := []

/-- A range of a buffer. -/
def slice (buf : Bytes) (offset len : Nat) : Bytes := (buf.drop offset).take len

/-- The place of a string in the pool, where it is put if it is new; its length is cut to 16 bits. -/
def StringInterner.intern (i : StringInterner) (s : Bytes) : (Nat × Nat) × StringInterner :=
  if s = [] then ((0, 0), i)
  else match i.entries.find? (fun e => e.hash == fnv1a s && e.len == s.length && slice i.buf e.offset e.len == s) with
    | some e => ((e.offset, e.len), i)
    | none =>
      let offset := i.buf.length % 2 ^ 32
      let len := min s.length 65535
      ((offset, len), { buf := i.buf ++ s.take len, entries := i.entries ++ [⟨fnv1a s, offset, len⟩] })

/-- The first pass, with the records it leads to. -/
def internNodes (i : StringInterner) : List OwnedNode → List SemanticNode × StringInterner
  | [] => ([], i)
  | n :: nodes =>
    let (tag, i) := i.intern n.tag
    let (text, i) := i.intern n.text
    let (records, i) := internNodes i nodes
    ({ n.toAttrs with tagOffset := tag.1, tagLen := tag.2, textOffset := text.1, textLen := text.2 } :: records, i)

/-- The pool after all strings of the nodes. -/
def stringPool (nodes : List OwnedNode) : Bytes := (internNodes {} nodes).2.buf

/-- The padding up to the next multiple of eight. -/
def padTo8 (len : Nat) : Nat := (8 - len % 8) % 8

/-- The message; the code writes each part at its place in a buffer of zeros. -/
def serializeStateUpdate (nodes : List OwnedNode) (viewportW viewportH : UInt32) (pageId : UInt64) : Bytes :=
  leBytes 4 fbpMagic ++ (leBytes 1 msgDomStateUpdate ++ (List.replicate 3 0 ++ (leBytes 8 pageId.toNat ++
    (leBytes 4 (stringPool nodes).length ++ (leBytes 4 nodes.length ++ (leBytes 4 viewportW.toNat ++
    (leBytes 4 viewportH.toNat ++ (stringPool nodes ++
    (List.replicate (padTo8 (headerSize + (stringPool nodes).length)) 0 ++
    ((internNodes {} nodes).1.map SemanticNode.bytes).flatten)))))))))

/-! ## The parser -/

/-- Why a message is refused. -/
inductive ParseError where
  | tooShort (have_ need : Nat)
  | badMagic (got : Nat)
  | wrongMsgType (got : Nat)
  | stringPoolOverflow
  | nodeSliceMisaligned
  | nodeSliceOverflow
deriving Repr, DecidableEq

/-- A parsed message: the records refer to the pool. -/
structure StateUpdate where
  pageId : Nat
  viewportW : Nat
  viewportH : Nat
  stringPool : Bytes
  nodes : List SemanticNode

/-- A string of the pool, empty when it is out of range. -/
def StateUpdate.resolve (u : StateUpdate) (offset len : Nat) : Bytes :=
  if offset + len ≤ u.stringPool.length then slice u.stringPool offset len else []

/-- The tag of a record. -/
def StateUpdate.tag (u : StateUpdate) (n : SemanticNode) : Bytes := u.resolve n.tagOffset n.tagLen

/-- The text of a record. -/
def StateUpdate.text (u : StateUpdate) (n : SemanticNode) : Bytes := u.resolve n.textOffset n.textLen

/-- Parses a buffer that stands at the address `ptr`. -/
def parseStateUpdate (ptr : Nat) (buf : Bytes) : Except ParseError StateUpdate :=
  let mem := fun i => buf.getD i 0
  if buf.length < headerSize then .error (.tooShort buf.length headerSize)
  else if leAt mem 0 4 ≠ fbpMagic then .error (.badMagic (leAt mem 0 4))
  else if leAt mem 4 1 ≠ msgDomStateUpdate then .error (.wrongMsgType (leAt mem 4 1))
  else
    let poolEnd := headerSize + leAt mem 16 4
    let nodeCount := leAt mem 20 4
    if 2 ^ 64 ≤ poolEnd then .error .stringPoolOverflow
    else if buf.length < poolEnd then .error (.tooShort buf.length poolEnd)
    else
      let nodesOffset := poolEnd + padTo8 poolEnd
      let nodesEnd := nodesOffset + nodeCount * nodeSize
      if 2 ^ 64 ≤ nodeCount * nodeSize ∨ 2 ^ 64 ≤ nodesEnd then .error .nodeSliceOverflow
      else if buf.length < nodesEnd then .error (.tooShort buf.length nodesEnd)
      else if (ptr + nodesOffset) % 4 ≠ 0 then .error .nodeSliceMisaligned
      else .ok
        { pageId := leAt mem 8 8, viewportW := leAt mem 24 4, viewportH := leAt mem 28 4
          stringPool := bytesAt mem headerSize (leAt mem 16 4)
          nodes := (List.range nodeCount).map fun i => nodeAt mem (nodesOffset + nodeSize * i) }

/-- The nodes a reader of the update sees. -/
def StateUpdate.owned (u : StateUpdate) : List OwnedNode :=
  u.nodes.map fun n => { n.toAttrs with tag := u.tag n, text := u.text n }

/-- **The round trip**: what is parsed has the same nodes. -/
def RoundTrips (ptr : Nat) (nodes : List OwnedNode) (viewportW viewportH : UInt32) (pageId : UInt64) : Prop :=
  ∃ u, parseStateUpdate ptr (serializeStateUpdate nodes viewportW viewportH pageId) = .ok u ∧ u.owned = nodes

/-! ## Interning -/

/-- A place in the pool stays where it is. -/
theorem slice_append {buf more : Bytes} {offset len : Nat} (h : offset + len ≤ buf.length) :
    slice (buf ++ more) offset len = slice buf offset len := by
  rw [slice, drop_append_of_le_length (by omega), take_append_of_le_length (by rw [length_drop]; omega),
    slice]

/-- The place of a string in a pool: all of it up to 65535 bytes. -/
structure Resolves (pool : Bytes) (place : Nat × Nat) (s : Bytes) : Prop where
  offset_lt : place.1 < 2 ^ 32
  len_lt : place.2 < 2 ^ 16
  fits : place.1 + place.2 ≤ pool.length
  eq : slice pool place.1 place.2 = s.take 65535

theorem Resolves.mono {pool pool' : Bytes} {place : Nat × Nat} {s : Bytes} (h : Resolves pool place s)
    (hgrow : pool <+: pool') : Resolves pool' place s := by
  obtain ⟨more, rfl⟩ := hgrow
  refine ⟨h.offset_lt, h.len_lt, ?_, (slice_append h.fits).trans h.eq⟩
  rw [length_append]
  exact Nat.le_add_right_of_le h.fits

/-- The entries are places in the buffer. -/
def StringInterner.Sound (i : StringInterner) : Prop :=
  ∀ e ∈ i.entries, e.offset < 2 ^ 32 ∧ e.len < 2 ^ 16 ∧ e.offset + e.len ≤ i.buf.length

/-- Interning only appends. -/
theorem intern_grows (i : StringInterner) (s : Bytes) : i.buf <+: (i.intern s).2.buf := by
  unfold StringInterner.intern
  repeat' split
  · exact prefix_rfl
  · exact prefix_rfl
  · exact prefix_append _ _

theorem internNodes_grows (i : StringInterner) (nodes : List OwnedNode) : i.buf <+: (internNodes i nodes).2.buf := by
  induction nodes generalizing i with
  | nil => exact prefix_rfl
  | cons n nodes ih => exact ((intern_grows i n.tag).trans (intern_grows _ n.text)).trans (ih _)

/-- **One string**: its place is exact. -/
theorem intern_resolves {i : StringInterner} (hi : i.Sound) (s : Bytes) (hlt : (i.intern s).2.buf.length < 2 ^ 32) :
    (i.intern s).2.Sound ∧ Resolves (i.intern s).2.buf (i.intern s).1 s := by
  unfold StringInterner.intern at hlt ⊢
  by_cases hs : s = []
  · rw [if_pos hs]
    exact ⟨hi, Nat.two_pow_pos 32, Nat.two_pow_pos 16, Nat.zero_le _, by rw [hs]; rfl⟩
  rw [if_neg hs] at hlt ⊢
  split at hlt
  · rename_i e he
    obtain ⟨hoff, hlen, hfits⟩ := hi e (mem_of_find?_eq_some he)
    have hfound := find?_some he
    simp only [Bool.and_eq_true, beq_iff_eq] at hfound
    refine ⟨hi, hoff, hlen, hfits, hfound.2.trans ?_⟩
    rw [take_of_length_le (by omega)]
  · have hfits : (i.buf ++ s.take (min s.length 65535)).length = i.buf.length + min s.length 65535 := by
      rw [length_append, length_take]
      omega
    rw [show _ = i.buf.length + min s.length 65535 from hfits] at hlt
    have hmod : i.buf.length % 2 ^ 32 = i.buf.length := Nat.mod_eq_of_lt (by omega)
    simp only [hmod]
    refine ⟨fun e he => ?_, by omega, by omega, Nat.le_of_eq hfits.symm, ?_⟩
    · rcases mem_append.mp he with he | he
      · obtain ⟨hoff, hlen, hle⟩ := hi e he
        exact ⟨hoff, hlen, hle.trans (Nat.le_of_add_right_le (Nat.le_of_eq hfits.symm))⟩
      · obtain rfl := mem_singleton.mp he
        exact ⟨by dsimp only; omega, by dsimp only; omega, Nat.le_of_eq hfits.symm⟩
    · rw [slice, drop_left, take_take, Nat.min_self, Nat.min_comm, ← take_take, take_length]

/-- What the record of a node says of it, in a pool. -/
structure Packs (pool : Bytes) (r : SemanticNode) (n : OwnedNode) : Prop where
  attrs : r.toAttrs = n.toAttrs
  tag : Resolves pool (r.tagOffset, r.tagLen) n.tag
  text : Resolves pool (r.textOffset, r.textLen) n.text

/-- **All strings**, in the complete pool. -/
theorem internNodes_packs {i : StringInterner} (hi : i.Sound) (nodes : List OwnedNode)
    (hlt : (internNodes i nodes).2.buf.length < 2 ^ 32) :
    List.Forall₂ (Packs (internNodes i nodes).2.buf) (internNodes i nodes).1 nodes := by
  induction nodes generalizing i with
  | nil => exact .nil
  | cons n nodes ih =>
    have hrest := internNodes_grows ((i.intern n.tag).2.intern n.text).2 nodes
    have htext := intern_grows (i.intern n.tag).2 n.text
    have hlt₂ := hrest.length_le.trans_lt hlt
    obtain ⟨hi₁, htag⟩ := intern_resolves hi n.tag (htext.length_le.trans_lt hlt₂)
    obtain ⟨hi₂, htext'⟩ := intern_resolves hi₁ n.text hlt₂
    exact .cons ⟨rfl, htag.mono (htext.trans hrest), htext'.mono hrest⟩ (ih hi₂ hlt)

/-! ## Records -/

section

variable {mem : Nat → UInt8} {p : Nat}

theorem ofNat_leAt {v : UInt32} (h : Lies mem p (leBytes 4 v.toNat)) : UInt32.ofNat (leAt mem p 4) = v := by
  rw [leAt_of_lies h v.toNat_lt, UInt32.ofNat_toNat]

/-- A record is read back. -/
theorem Packs.nodeAt {pool : Bytes} {r : SemanticNode} {n : OwnedNode} (h : Packs pool r n)
    (hlie : Lies mem p r.bytes) : nodeAt mem p = r := by
  simp only [SemanticNode.bytes, lies_append, leBytes_length, Nat.add_assoc] at hlie
  obtain ⟨hto, htl, hf, hxo, hxl, hp, hfc, hlc, hns, hx, hy, hw, hh⟩ := hlie
  rw [Fbp.nodeAt, leAt_of_lies hto h.tag.offset_lt, leAt_of_lies htl h.tag.len_lt, leAt_of_lies hf r.flags.toNat_lt,
    leAt_of_lies hxo h.text.offset_lt, leAt_of_lies hxl (h.text.len_lt.trans (by decide)), ofNat_leAt hp,
    ofNat_leAt hfc, ofNat_leAt hlc, ofNat_leAt hns, ofNat_leAt hx, ofNat_leAt hy, ofNat_leAt hw, ofNat_leAt hh,
    UInt16.ofNat_toNat]

/-- The records are read back. -/
theorem nodes_read {pool : Bytes} {records : List SemanticNode} {nodes : List OwnedNode}
    (h : List.Forall₂ (Packs pool) records nodes) (hlie : Lies mem p (records.map SemanticNode.bytes).flatten) :
    (List.range nodes.length).map (fun i => nodeAt mem (p + nodeSize * i)) = records := by
  refine ext_getElem (by rw [length_map, length_range, h.length_eq]) fun i _ hi => ?_
  rw [getElem_map, getElem_range]
  refine (forall₂_iff_get.mp h).2 i hi (h.length_eq ▸ hi) |>.nodeAt (hlie.flatten (w := nodeSize) ?_ ?_)
  · intro bs hbs
    obtain ⟨r, _, rfl⟩ := mem_map.mp hbs
    simp [SemanticNode.bytes, nodeSize]
  · rw [getElem?_map, getElem?_eq_getElem hi]
    rfl

end

/-! ## The round trip -/

/-- A node with its strings cut as the pool cuts them. -/
def OwnedNode.cut (n : OwnedNode) : OwnedNode := { n with tag := n.tag.take 65535, text := n.text.take 65535 }

/-- Only a long text is cut. -/
theorem OwnedNode.cut_eq_iff {n : OwnedNode} (htag : n.tag.length ≤ 65535) : n.cut = n ↔ n.text.length ≤ 65535 := by
  rw [OwnedNode.cut, take_of_length_le htag, ← take_eq_self_iff]
  exact ⟨fun h => congrArg OwnedNode.text h, fun h => by rw [h]⟩

/-- What the records stand for. -/
theorem owned_eq {u : StateUpdate} {nodes : List OwnedNode} (h : List.Forall₂ (Packs u.stringPool) u.nodes nodes) :
    u.owned = nodes.map OwnedNode.cut := by
  rw [StateUpdate.owned, ← forall₂_eq_eq_eq, forall₂_map_left_iff, forall₂_map_right_iff]
  refine h.imp fun r n hr => ?_
  rw [StateUpdate.tag, StateUpdate.resolve, if_pos hr.tag.fits, hr.tag.eq, StateUpdate.text, StateUpdate.resolve,
    if_pos hr.text.fits, hr.text.eq, hr.attrs]
  rfl

section

variable {ptr : Nat} {nodes : List OwnedNode} {viewportW viewportH : UInt32} {pageId : UInt64}

/-- The parser gets the pool and the records. -/
theorem parse_serialize (hptr : ptr % 8 = 0) (hpool : (stringPool nodes).length < 2 ^ 32)
    (hcount : nodes.length < 2 ^ 32) :
    ∃ u, parseStateUpdate ptr (serializeStateUpdate nodes viewportW viewportH pageId) = .ok u ∧
      u.stringPool = stringPool nodes ∧ u.nodes = (internNodes {} nodes).1 := by
  have hpacks : List.Forall₂ (Packs (stringPool nodes)) (internNodes {} nodes).1 nodes :=
    internNodes_packs (fun _ he => by cases he) nodes hpool
  have hrecords : ((internNodes {} nodes).1.map SemanticNode.bytes).flatten.length = nodes.length * nodeSize := by
    have hconst : List.length ∘ SemanticNode.bytes = fun _ => nodeSize := by
      funext r
      simp [SemanticNode.bytes, nodeSize]
    rw [length_flatten, map_map, hconst, map_const', sum_replicate, hpacks.length_eq, smul_eq_mul]
  generalize hbuf : serializeStateUpdate nodes viewportW viewportH pageId = buf
  have hlen : buf.length = headerSize + (stringPool nodes).length + padTo8 (headerSize + (stringPool nodes).length) +
      nodes.length * nodeSize := by
    rw [← hbuf, serializeStateUpdate]
    simp only [length_append, leBytes_length, length_replicate, hrecords, headerSize]
    omega
  unfold parseStateUpdate
  generalize hmem : (fun i => buf.getD i 0) = mem
  have hlie : Lies mem 0 buf := hmem ▸ lies_getD buf 0
  rw [← hbuf, serializeStateUpdate] at hlie
  simp only [lies_append, leBytes_length, length_replicate, Nat.zero_add, Nat.add_assoc, Nat.reduceAdd] at hlie
  obtain ⟨hmagic, hmsg, -, -, hpoolLen, hnodeCount, -, -, hstrings, -, hnodes⟩ := hlie
  have hheader : headerSize = 32 := rfl
  have hsize : nodes.length * nodeSize = nodes.length * 48 := rfl
  have hpad : padTo8 (headerSize + (stringPool nodes).length) = (8 - (headerSize + (stringPool nodes).length) % 8) % 8 :=
    rfl
  simp only [leAt_of_lies hmagic (by decide), leAt_of_lies hmsg (by decide), leAt_of_lies hpoolLen hpool,
    leAt_of_lies hnodeCount hcount]
  rw [if_neg (by omega), if_neg (fun h => h rfl), if_neg (fun h => h rfl), if_neg (by omega), if_neg (by omega),
    if_neg (by omega), if_neg (by omega), if_neg (by omega)]
  exact ⟨_, rfl, hstrings.bytesAt, nodes_read hpacks (by rwa [← Nat.add_assoc] at hnodes)⟩

/-- The count is a 32-bit field. -/
theorem parse_count {buf : Bytes} {u : StateUpdate} (h : parseStateUpdate ptr buf = .ok u) :
    u.nodes.length < 2 ^ 32 := by
  unfold parseStateUpdate at h
  simp only at h
  split_ifs at h
  have hlt := fromLe_lt (bytesAt (fun i => buf.getD i 0) 20 4)
  rw [bytesAt_length] at hlt
  rwa [← Except.ok.inj h, length_map, length_range]

/-- The nodes come back as they were cut. -/
theorem roundTrips_iff_cut (hptr : ptr % 8 = 0) (hpool : (stringPool nodes).length < 2 ^ 32)
    (hcount : nodes.length < 2 ^ 32) :
    RoundTrips ptr nodes viewportW viewportH pageId ↔ nodes.map OwnedNode.cut = nodes := by
  obtain ⟨u, hparse, hp, hn⟩ := @parse_serialize ptr nodes viewportW viewportH pageId hptr hpool hcount
  have howned : u.owned = nodes.map OwnedNode.cut :=
    owned_eq (by rw [hp, hn]; exact internNodes_packs (fun _ he => by cases he) nodes hpool)
  rw [← howned]
  constructor
  · rintro ⟨u', hparse', hu'⟩
    rw [hparse] at hparse'
    cases hparse'
    exact hu'
  · exact fun hu => ⟨u, hparse, hu⟩

/-- **Nodes come back** exactly when no text is longer than 65535 bytes and their number fits in 32 bits. -/
theorem round_trips_iff (hptr : ptr % 8 = 0) (hpool : (stringPool nodes).length < 2 ^ 32)
    (htags : ∀ n ∈ nodes, n.tag.length ≤ 65535) :
    RoundTrips ptr nodes viewportW viewportH pageId ↔
      nodes.length < 2 ^ 32 ∧ ∀ n ∈ nodes, n.text.length ≤ 65535 := by
  have htexts : nodes.map OwnedNode.cut = nodes ↔ ∀ n ∈ nodes, n.text.length ≤ 65535 := by
    nth_rewrite 2 [← map_id nodes]
    rw [map_inj_left]
    exact forall₂_congr fun n hn => OwnedNode.cut_eq_iff (htags n hn)
  constructor
  · intro h
    have hcount : nodes.length < 2 ^ 32 := by
      obtain ⟨u, hparse, hu⟩ := h
      rw [← hu, StateUpdate.owned, length_map]
      exact parse_count hparse
    exact ⟨hcount, htexts.mp ((roundTrips_iff_cut hptr hpool hcount).mp h)⟩
  · exact fun h => (roundTrips_iff_cut hptr hpool h.1).mpr (htexts.mpr h.2)

end

/-- A node with nothing but a text. -/
def textNode (text : Bytes) : OwnedNode :=
  { flags := 0, parent := 0, firstChild := 0, lastChild := 0, nextSibling := 0, boundsX := 0, boundsY := 0, boundsW := 0
    boundsH := 0, tag := [], text := text }

theorem short_text_returns : RoundTrips 0 [textNode [65]] 0 0 0 :=
  (round_trips_iff rfl (by decide) (by decide)).mpr (by decide)

/-- A text of 65536 bytes comes back one byte shorter. -/
theorem long_text_cut : ¬ RoundTrips 0 [textNode (List.replicate 65536 0)] 0 0 0 := by
  have hpool : ∀ s, (stringPool [textNode s]).length < 2 ^ 32 := by
    intro s
    simp only [stringPool, internNodes, textNode, StringInterner.intern, if_true, find?_nil]
    split_ifs <;> simp
  rw [roundTrips_iff_cut rfl (hpool _) (by decide)]
  intro h
  have hlen := congrArg (fun n => n.text.length) (List.cons.inj h).1
  simp only [OwnedNode.cut, textNode, length_take, length_replicate] at hlen
  exact absurd hlen (by decide)

end Folkering.Fbp
