/-
  The FREE LIST of a virtqueue, to its end.

  The list is the one memory holds: from `free_head` on, through `next`, until the sentinel 0xFFFF — a `Chain.Linked`
  list.  That `num_free` is its length is a fact, kept by each operation: taking a descriptor pops the head
  (`allocDesc_list`), giving one back pushes it (`freeDesc_list`).  `Touches` says what an operation leaves alone.
-/
import Folkering.Block.Queue
import Folkering.Lib.Chain

namespace Folkering.Block

open Chain Function

/-! ## What an operation leaves alone -/

/-- The two queues differ only in the free list's bookkeeping and in the given descriptors. -/
structure Touches (q q' : Virtqueue) (ds : List Nat) : Prop where
  desc : ∀ i ∉ ds, q'.desc i = q.desc i
  rings : q'.rings = q.rings
  used : (q'.usedRing, q'.usedIdx, q'.lastUsedIdx) = (q.usedRing, q.usedIdx, q.lastUsedIdx)

theorem touches_setDesc (q : Virtqueue) {i : Nat} {ds : List Nat} (hi : i ∈ ds) (d : VirtqDesc) :
    Touches q (q.setDesc i d) ds := by
  refine ⟨fun j hj => ?_, rfl, rfl⟩
  have hne : j ≠ i := by
    rintro rfl
    exact hj hi
  exact update_of_ne hne _ _

/-! ## The list -/

/-- The sentinel ends the list. -/
def linkOf (i : Nat) : Option Nat := if i = 0xFFFF then none else some i

/-- The descriptor a free descriptor leads to. -/
def Virtqueue.link (q : Virtqueue) (i : Nat) : Option Nat := linkOf (q.desc i).next

theorem linkOf_eq_some {i j : Nat} (h : linkOf i = some j) : i = j := by
  unfold linkOf at h
  split at h
  · cases h
  · exact Option.some.inj h

theorem link_setDesc (q : Virtqueue) (i : Nat) (d : VirtqDesc) :
    (q.setDesc i d).link = update q.link i (linkOf d.next) := by
  funext j
  by_cases hj : j = i
  · subst hj
    simp [Virtqueue.link, Virtqueue.setDesc]
  · simp [Virtqueue.link, Virtqueue.setDesc, update_of_ne hj]

/-- The free list of the queue is `l`, and `num_free` is its length. -/
structure FreeList (q : Virtqueue) (l : List Nat) : Prop where
  linked : Linked q.link (linkOf q.freeHead) l
  nodup : l.Nodup
  count : q.numFree = l.length

theorem freeList_new {n : Nat} (hpos : 0 < n) (hn : n < 2 ^ 16) : FreeList (.new n) (List.range n) := by
  -- the list from descriptor `i` on, from the last one backwards
  have hfrom : ∀ k i, i + k + 1 = n → Linked (Virtqueue.new n).link (some i) (List.range' i (k + 1)) := by
    intro k
    induction k with
    | zero =>
      intro i hi
      refine ⟨rfl, ?_⟩
      show linkOf (if i + 1 < n then i + 1 else 0xFFFF) = none
      rw [if_neg (by omega)]
      rfl
    | succ k ih =>
      intro i hi
      refine ⟨rfl, ?_⟩
      have hnext : (Virtqueue.new n).link i = some (i + 1) := by
        show linkOf (if i + 1 < n then i + 1 else 0xFFFF) = some (i + 1)
        rw [if_pos (by omega), linkOf, if_neg (by omega)]
      rw [hnext]
      exact ih (i + 1) (by omega)
  refine ⟨?_, List.nodup_range, List.length_range.symm⟩
  obtain ⟨k, rfl⟩ : ∃ k, n = k + 1 := ⟨n - 1, by omega⟩
  rw [List.range_eq_range']
  exact hfrom k 0 (by omega)

/-- Only descriptors outside the list were touched. -/
theorem FreeList.frame {q q' : Virtqueue} {l ds : List Nat} (h : FreeList q l) (ht : Touches q q' ds)
    (hhead : q'.freeHead = q.freeHead) (hcount : q'.numFree = q.numFree) (hds : ∀ d ∈ ds, d ∉ l) : FreeList q' l := by
  refine ⟨?_, h.nodup, hcount.trans h.count⟩
  rw [hhead]
  refine h.linked.frame fun i hi => ?_
  simp only [Virtqueue.link]
  rw [ht.desc i fun hd => hds i hd hi]

theorem allocDesc_nil {q : Virtqueue} (h : FreeList q []) : q.allocDesc = none := by
  have hcount : q.numFree = 0 := h.count
  rw [Virtqueue.allocDesc, if_pos hcount]

theorem allocDesc_list {q : Virtqueue} {a : Nat} {l : List Nat} (h : FreeList q (a :: l)) :
    ∃ q', q.allocDesc = some (a, q') ∧ FreeList q' l ∧ Touches q q' [] := by
  obtain ⟨hhead, hrest⟩ := h.linked
  have hcount : q.numFree = l.length + 1 := h.count
  refine ⟨{ q with freeHead := (q.desc a).next, numFree := q.numFree - 1 }, ?_, ⟨?_, h.nodup.of_cons, ?_⟩,
    ⟨fun _ _ => rfl, rfl, rfl⟩⟩
  · rw [Virtqueue.allocDesc, if_neg (by omega), linkOf_eq_some hhead]
  · exact hrest
  · show q.numFree - 1 = l.length
    omega

theorem freeDesc_list {q : Virtqueue} {l : List Nat} (h : FreeList q l) {i : Nat} (hi : i ∉ l) (hlt : i < 0xFFFF) :
    FreeList (q.freeDesc i) (i :: l) := by
  refine ⟨?_, List.nodup_cons.mpr ⟨hi, h.nodup⟩, congrArg (· + 1) h.count⟩
  have hlink : (q.freeDesc i).link = update q.link i (linkOf q.freeHead) :=
    link_setDesc q i { q.desc i with next := q.freeHead }
  have hself : linkOf (q.freeDesc i).freeHead = some i := if_neg (by show i ≠ 0xFFFF; omega)
  rw [hlink, hself]
  exact h.linked.push hi

end Folkering.Block
