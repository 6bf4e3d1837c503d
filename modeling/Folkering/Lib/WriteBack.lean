/-
  Write-back — memory that is brought to disk later, with marks on what differs.

  Items `x : ι` of a memory `M` are kept on a disk `D`; `agrees x d m` says that the disk holds item `x`
  of the memory.  Whoever changes an item MARKS it.  A writer CLAIMS marks and takes a SNAPSHOT of the
  memory to write the claimed items from, while others go on changing and marking.
    * `Sound`   — what is neither marked nor claimed is on the disk, and the snapshot is current
                  except for what has been marked since;
    * `mutate`  — changing items keeps it if they are marked.
-/
import Mathlib.Data.Set.Basic

namespace Folkering.WriteBack

/-- Memory, disk and what the marks say. -/
structure View (ι D M : Type) where
  mem : M
  disk : D
  /-- marked, or changed by someone who is about to mark -/
  marked : Set ι
  /-- claimed by the writer and not yet on the disk -/
  claim : Set ι
  snap : Option M

variable {ι D M : Type} {agrees : ι → D → M → Prop} {v : View ι D M}

/-- What is neither marked nor claimed is on the disk. -/
structure Sound (agrees : ι → D → M → Prop) (v : View ι D M) : Prop where
  clean : ∀ x, x ∉ v.marked → x ∉ v.claim → agrees x v.disk v.mem
  current : ∀ m, v.snap = some m → ∀ x, x ∉ v.marked → ∀ d, agrees x d m → agrees x d v.mem

variable {v' : View ι D M}

/-- Changing some items and marking them (now or soon). -/
theorem Sound.mutate (h : Sound agrees v) (changed : Set ι) (hdisk : v'.disk = v.disk)
    (hsnap : v'.snap = v.snap) (hmarked : v.marked ⊆ v'.marked) (hchanged : changed ⊆ v'.marked)
    (hclaim : v.claim ⊆ v'.claim)
    (hsame : ∀ x, x ∉ changed → ∀ d, agrees x d v.mem → agrees x d v'.mem) : Sound agrees v' := by
  constructor
  · intro x hx hc
    rw [hdisk]
    exact hsame x (fun hch => hx (hchanged hch)) v.disk
      (h.clean x (fun hm => hx (hmarked hm)) fun hcl => hc (hclaim hcl))
  · intro m hm x hx d hd
    exact hsame x (fun hch => hx (hchanged hch)) d
      (h.current m (hsnap ▸ hm) x (fun hm' => hx (hmarked hm')) d hd)

end Folkering.WriteBack
