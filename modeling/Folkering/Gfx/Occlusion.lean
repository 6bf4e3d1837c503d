/-
  Occlusion culling and damage of the render graph.

  The nodes of a sorted graph are painted in the order of the list.  `compute_occlusion` looks, for each node, at the
  opaque nodes behind it in the list: one that contains what is on the screen of the node hides it, the others leave the
  pixels they cover as clips.  The nodes that are left and dirty put what is on the screen of them on the damage list,
  which `coalesce_damage` merges until no two rectangles overlap.
    * `judge_spec`         — what is recorded for one node, from the nodes above it;
    * `paint_hidden`       — PAINTER: what is painted under an opaque node does not matter;
    * `mergeAll_spec`      — the merging ends apart, and covers what it covered.
-/
import Folkering.Gfx.Rect
import Folkering.Lib.Merging

namespace Folkering.Gfx

open Merging List Function Option

/-- The second rectangle lies inside the first. -/
def Rect.contains (a b : Rect) : Bool :=
  a.x.toInt ≤ b.x.toInt && a.y.toInt ≤ b.y.toInt && a.right ≥ b.right && a.bottom ≥ b.bottom

/-- A node of the scene, sorted by depth. -/
structure RenderNode where
  zIndex : Int32
  globalBounds : Rect
  isDirty : Bool
  isOpaque : Bool
  isOccluded : Bool
  clipRegions : List Rect

/-- The scene, its damage and the screen. -/
structure MinimalRenderGraph where
  nodes : List RenderNode
  damageRegions : List Rect
  screenWidth : UInt32
  screenHeight : UInt32

/-- How many nodes are hidden, partly hidden and visible. -/
structure OcclusionStats where
  fullyOccluded : UInt32
  partiallyOccluded : UInt32
  visible : UInt32

namespace MinimalRenderGraph

/-- A stable sort. -/
def sortByZ (g : MinimalRenderGraph) : MinimalRenderGraph :=
  { g with nodes := g.nodes.mergeSort fun a b => a.zIndex ≤ b.zIndex }

/-- The screen as a rectangle. -/
def screenRect (g : MinimalRenderGraph) : Rect := ⟨0, 0, g.screenWidth, g.screenHeight⟩

end MinimalRenderGraph

/-- The loop over the nodes above: is the rectangle covered by one of them, and the clips so far. -/
def scanAbove (onScreen : Rect) : List RenderNode → List Rect → Bool × List Rect
  | [], clips => (false, clips)
  | above :: rest, clips =>
    if !above.isOpaque then scanAbove onScreen rest clips
    else if above.globalBounds.contains onScreen then (true, clips)
    else match onScreen.intersection above.globalBounds with
      | some blocked => scanAbove onScreen rest (clips ++ [blocked])
      | none => scanAbove onScreen rest clips

/-- One round of the loop over the nodes: the node, its damage and the statistics. -/
def judge (screen : Rect) (node : RenderNode) (above : List RenderNode) (stats : OcclusionStats) :
    RenderNode × List Rect × OcclusionStats :=
  let node := { node with isOccluded := false, clipRegions := [] }
  match node.globalBounds.intersection screen with
  | none => ({ node with isOccluded := true }, [], { stats with fullyOccluded := stats.fullyOccluded + 1 })
  | some onScreen =>
    let (fullyCovered, partialClips) := scanAbove onScreen above []
    if fullyCovered then
      ({ node with isOccluded := true }, [], { stats with fullyOccluded := stats.fullyOccluded + 1 })
    else
      let damage := if node.isDirty then [onScreen] else []
      if partialClips.isEmpty then (node, damage, { stats with visible := stats.visible + 1 })
      else ({ node with clipRegions := partialClips }, damage,
        { stats with partiallyOccluded := stats.partiallyOccluded + 1 })

/-- The nodes from the back, each judged by those above it. -/
def occludeFrom (screen : Rect) : List RenderNode → OcclusionStats → List RenderNode × List Rect × OcclusionStats
  | [], stats => ([], [], stats)
  | node :: above, stats =>
    let j := judge screen node above stats
    let rest := occludeFrom screen above j.2.2
    (j.1 :: rest.1, j.2.1 ++ rest.2.1, rest.2.2)

/-- The occlusion pass. -/
def computeOcclusion (g : MinimalRenderGraph) : MinimalRenderGraph × OcclusionStats :=
  let r := occludeFrom g.screenRect g.nodes ⟨0, 0, 0⟩
  ({ g with nodes := r.1, damageRegions := r.2.1 }, r.2.2)

/-- The first overlapping pair, in the order of the two loops. -/
def firstOverlap (rs : List Rect) : Option (Nat × Nat) :=
  (List.range rs.length).findSome? fun i => rs[i]?.bind fun a =>
    ((rs.drop (i + 1)).findIdx? a.overlaps).map fun k => (i, i + 1 + k)

/-- The loop of `coalesce_damage`. -/
def mergeAll (rs : List Rect) : List Rect :=
  match firstOverlap rs with
  | none => rs
  | some (i, j) =>
    if h : i < j ∧ j < rs.length then
      mergeAll ((swapRemove rs j).set i ((rs.get ⟨i, h.1.trans h.2⟩).union (rs.get ⟨j, h.2⟩)))
    else rs
termination_by rs.length
decreasing_by
  have := swapRemove_length h.2
  rw [length_set]
  omega

/-- Join damage rectangles that overlap. -/
def coalesceDamage (g : MinimalRenderGraph) (maxRects : Nat) : MinimalRenderGraph :=
  if g.damageRegions.length ≤ 1 then g
  else
    let merged := mergeAll g.damageRegions
    if merged.length > maxRects then
      match merged with
      | [] => { g with damageRegions := merged }
      | r :: rs => { g with damageRegions := [rs.foldl Rect.union r] }
    else { g with damageRegions := merged }

/-! ## One node -/

theorem has_of_contains {a b : Rect} (h : a.contains b = true) {p : Int × Int} (hp : b.Has p) : a.Has p := by
  simp only [Rect.contains, Bool.and_eq_true, decide_eq_true_eq, ge_iff_le] at h
  unfold Rect.Has at hp ⊢
  omega

/-- What the scan of the nodes above finds. -/
theorem scanAbove_spec (onScreen : Rect) : ∀ (above : List RenderNode) (clips : List Rect),
    ((scanAbove onScreen above clips).1 = true →
      ∃ a ∈ above, a.isOpaque = true ∧ ∀ p, onScreen.Has p → a.globalBounds.Has p) ∧
    ∀ r ∈ (scanAbove onScreen above clips).2, r ∈ clips ∨
      ∃ a ∈ above, a.isOpaque = true ∧ ∀ p, r.Has p → a.globalBounds.Has p
  | [], clips => ⟨by simp [scanAbove], fun r hr => .inl hr⟩
  | above :: rest, clips => by
    -- the rest of the loop, with the clips it starts from
    have hrest : ∀ clips', (∀ r ∈ clips', r ∈ clips ∨ above.isOpaque = true ∧ ∀ p, r.Has p → above.globalBounds.Has p) →
        ((scanAbove onScreen rest clips').1 = true →
          ∃ a ∈ above :: rest, a.isOpaque = true ∧ ∀ p, onScreen.Has p → a.globalBounds.Has p) ∧
        ∀ r ∈ (scanAbove onScreen rest clips').2, r ∈ clips ∨
          ∃ a ∈ above :: rest, a.isOpaque = true ∧ ∀ p, r.Has p → a.globalBounds.Has p := by
      intro clips' hclips
      obtain ⟨hcovered, hall⟩ := scanAbove_spec onScreen rest clips'
      constructor
      · intro h
        obtain ⟨a, ha, hsolid, hp⟩ := hcovered h
        exact ⟨a, mem_cons_of_mem _ ha, hsolid, hp⟩
      · intro r hr
        rcases hall r hr with hr | ⟨a, ha, hsolid, hp⟩
        · exact (hclips r hr).imp_right fun h => ⟨above, mem_cons_self, h⟩
        · exact .inr ⟨a, mem_cons_of_mem _ ha, hsolid, hp⟩
    have hsame := hrest clips fun r hr => .inl hr
    unfold scanAbove
    split_ifs with hsolid hcontains
    · exact hsame
    · have hsolid : above.isOpaque = true := by simpa using hsolid
      exact ⟨fun _ => ⟨above, mem_cons_self, hsolid, fun p hp => has_of_contains hcontains hp⟩, fun r hr => .inl hr⟩
    · have hsolid : above.isOpaque = true := by simpa using hsolid
      cases hblocked : onScreen.intersection above.globalBounds with
      | none => exact hsame
      | some blocked =>
        refine hrest _ fun r hr => ?_
        rcases mem_append.mp hr with hr | hr
        · exact .inl hr
        · rw [mem_singleton.mp hr]
          exact .inr ⟨hsolid, fun p hp => ((Rect.has_intersection hblocked).mp hp).2⟩

/-- What is recorded for a node, from the nodes above it. -/
structure Judged (screen : Rect) (node : RenderNode) (above : List RenderNode) (out : RenderNode) (damage : List Rect) :
    Prop where
  bounds : out.globalBounds = node.globalBounds
  dirty : out.isDirty = node.isDirty
  occluded : out.isOccluded = true → ∀ p, node.globalBounds.Has p → screen.Has p →
    ∃ a ∈ above, a.isOpaque = true ∧ a.globalBounds.Has p
  clips : ∀ r ∈ out.clipRegions, ∀ p, r.Has p → ∃ a ∈ above, a.isOpaque = true ∧ a.globalBounds.Has p
  damaged : out.isOccluded = false → node.isDirty = true → ∀ p, node.globalBounds.Has p → screen.Has p →
    ∃ r ∈ damage, r.Has p
  inside : ∀ r ∈ damage, node.globalBounds.intersection screen = some r

/-- One node is judged rightly. -/
theorem judge_spec (screen : Rect) (node : RenderNode) (above : List RenderNode) (stats : OcclusionStats) :
    Judged screen node above (judge screen node above stats).1 (judge screen node above stats).2.1 := by
  unfold judge
  simp only
  cases honScreen : node.globalBounds.intersection screen with
  | none =>
    refine ⟨rfl, rfl, fun _ p hp hs => ?_, by simp, by simp, by simp⟩
    exact (Rect.not_has_of_disjoint honScreen hp hs).elim
  | some onScreen =>
    have hhas : ∀ p, node.globalBounds.Has p → screen.Has p → onScreen.Has p := fun p hp hs =>
      (Rect.has_intersection honScreen).mpr ⟨hp, hs⟩
    obtain ⟨hcovered, hclips⟩ := scanAbove_spec onScreen above []
    have hdamage : ∀ p, node.isDirty = true → onScreen.Has p →
        ∃ r ∈ (if node.isDirty = true then [onScreen] else []), r.Has p := by
      intro p hdirty hp
      rw [if_pos hdirty]
      exact ⟨onScreen, mem_singleton_self _, hp⟩
    have hinside : ∀ r ∈ (if node.isDirty = true then [onScreen] else []),
        node.globalBounds.intersection screen = some r := by
      intro r hr
      split at hr
      · rw [mem_singleton.mp hr]
        exact honScreen
      · cases hr
    simp only
    generalize (if node.isDirty = true then [onScreen] else []) = damage at *
    split_ifs with hfull hempty
    · refine ⟨rfl, rfl, fun _ p hp hs => ?_, by simp, by simp, by simp⟩
      obtain ⟨a, ha, hsolid, hcover⟩ := hcovered hfull
      exact ⟨a, ha, hsolid, hcover p (hhas p hp hs)⟩
    · exact ⟨rfl, rfl, by simp, by simp, fun _ hd p hp hs => hdamage p hd (hhas p hp hs), hinside⟩
    · refine ⟨rfl, rfl, by simp, fun r hr p hp => ?_, fun _ hd p hp hs => hdamage p hd (hhas p hp hs), hinside⟩
      obtain ⟨a, ha, hsolid, hcover⟩ := (hclips r hr).resolve_left (by simp)
      exact ⟨a, ha, hsolid, hcover p hp⟩

/-- Every node of the graph is judged by those behind it in the list. -/
theorem occludeFrom_get (screen : Rect) : ∀ (nodes : List RenderNode) (stats : OcclusionStats) (i : Nat) (out : RenderNode),
    (occludeFrom screen nodes stats).1[i]? = some out → ∃ node damage, nodes[i]? = some node ∧
      Judged screen node (nodes.drop (i + 1)) out damage ∧ ∀ r ∈ damage, r ∈ (occludeFrom screen nodes stats).2.1
  | [], _, _, _, h => by simp [occludeFrom] at h
  | node :: above, stats, 0, out, h => by
    cases h
    exact ⟨node, _, rfl, judge_spec screen node above stats, fun r hr => mem_append_left _ hr⟩
  | node :: above, stats, i + 1, out, h => by
    obtain ⟨node', damage, hget, hjudged, hmem⟩ :=
      occludeFrom_get screen above (judge screen node above stats).2.2 i out h
    exact ⟨node', damage, hget, hjudged, fun r hr => mem_append_right _ (hmem r hr)⟩

theorem occludeFrom_damage (screen : Rect) : ∀ (nodes : List RenderNode) (stats : OcclusionStats),
    ∀ r ∈ (occludeFrom screen nodes stats).2.1, ∃ a : Rect, a.intersection screen = some r
  | [], _, r, hr => by cases hr
  | node :: above, stats, r, hr => by
    rcases mem_append.mp hr with hr | hr
    · exact ⟨_, (judge_spec screen node above stats).inside r hr⟩
    · exact occludeFrom_damage screen above _ r hr

/-! ## The painter -/

section Painter

variable {C : Type}

/-- Painting a pixel: each node in turn, with its number, draws over what is there. -/
def paintInto (draw : Nat → Int × Int → C → C) (p : Int × Int) (nodes : List (RenderNode × Nat)) (c : C) : C :=
  nodes.foldl (fun c n => if n.1.globalBounds.Has p then draw n.2 p c else c) c

/-- The painter's algorithm: from the lowest `z` up, equal ones in the order of the list. -/
def paint (draw : Nat → Int × Int → C → C) (nodes : List RenderNode) (p : Int × Int) (c : C) : C :=
  paintInto draw p (nodes.zipIdx.mergeSort fun a b => a.1.zIndex ≤ b.1.zIndex) c

theorem paintInto_congr {draw draw' : Nat → Int × Int → C → C} {p : Int × Int} {nodes : List (RenderNode × Nat)}
    (h : ∀ n ∈ nodes, draw' n.2 = draw n.2) (c : C) : paintInto draw' p nodes c = paintInto draw p nodes c := by
  refine foldl_ext _ _ _ fun c n hn => ?_
  rw [h n hn]

/-- What is painted under an opaque node does not matter. -/
theorem paint_hidden {nodes : List RenderNode} (hsorted : nodes.Pairwise fun a b => a.zIndex ≤ b.zIndex) {i j : Nat}
    (hij : i < j) {n : RenderNode} (hn : nodes[j]? = some n) {p : Int × Int} (hp : n.globalBounds.Has p)
    {draw : Nat → Int × Int → C → C} (hsolid : ∀ c c', draw j p c = draw j p c') (alt : Int × Int → C → C) (c : C) :
    paint (update draw i alt) nodes p c = paint draw nodes p c := by
  have horder : (nodes.zipIdx.mergeSort fun a b => decide (a.1.zIndex ≤ b.1.zIndex)) = nodes.zipIdx := by
    refine mergeSort_of_pairwise (List.Pairwise.of_map Prod.fst (fun a b h => ?_) (by rwa [zipIdx_map_fst]))
    exact decide_eq_true h
  obtain ⟨hlt, rfl⟩ := List.getElem?_eq_some_iff.mp hn
  have hsplit : nodes = nodes.take j ++ nodes[j] :: nodes.drop (j + 1) := by
    rw [← drop_eq_getElem_cons hlt, take_append_drop]
  have hzip : nodes.zipIdx = (nodes.take j).zipIdx ++ (nodes[j], j) :: (nodes.drop (j + 1)).zipIdx (j + 1) := by
    conv_lhs => rw [hsplit]
    rw [zipIdx_append, length_take, Nat.min_eq_left hlt.le, Nat.zero_add, zipIdx_cons]
  have hafter : ∀ m ∈ (nodes.drop (j + 1)).zipIdx (j + 1), update draw i alt m.2 = draw m.2 := by
    intro m hm
    have := le_snd_of_mem_zipIdx hm
    exact update_of_ne (by omega) _ _
  unfold paint
  rw [horder, hzip]
  unfold paintInto
  rw [foldl_append, foldl_append, foldl_cons, foldl_cons]
  simp only [if_pos hp]
  rw [update_of_ne (by omega), hsolid _ ((nodes.take j).zipIdx.foldl
    (fun c n => if n.1.globalBounds.Has p then draw n.2 p c else c) c)]
  exact paintInto_congr hafter _

end Painter

/-- The pixel shows nothing of node `i`: whatever it draws there, and whatever the others draw, if only the opaque ones
    draw over everything. -/
def Invisible (nodes : List RenderNode) (i : Nat) (p : Int × Int) : Prop :=
  ∀ (C : Type) (draw : Nat → Int × Int → C → C), (∀ j n, nodes[j]? = some n → n.isOpaque = true →
    ∀ q c c', draw j q c = draw j q c') → ∀ (alt : Int × Int → C → C) (c : C),
      paint (update draw i alt) nodes p c = paint draw nodes p c

/-! ## Merging the damage -/

/-- The rectangles on a screen, with their pixels. -/
def onScreen (w h : UInt32) : Shapes Rect (Int × Int) where
  good r := (0 ≤ r.x.toInt ∧ r.right ≤ w.toNat) ∧ 0 ≤ r.y.toInt ∧ r.bottom ≤ h.toNat
  has := Rect.Has
  join := Rect.union
  good_join := by
    intro a b ha hb
    have hw := w.toNat_lt
    have hh := h.toNat_lt
    obtain ⟨h₁, h₂, h₃, h₄⟩ := @Rect.union_edges a b (by omega) (by omega)
    omega
  has_join := by
    intro a b p ha hb hp
    have hw := w.toNat_lt
    have hh := h.toNat_lt
    exact Rect.has_union (by omega) (by omega) hp

theorem onScreen_of_intersection {a r : Rect} {w h : UInt32} (hr : a.intersection ⟨0, 0, w, h⟩ = some r) :
    (onScreen w h).good r := by
  obtain ⟨h₁, h₂, h₃, h₄⟩ := Rect.intersection_edges hr
  have hright : Rect.right ⟨0, 0, w, h⟩ = w.toNat := by simp [Rect.right]
  have hbottom : Rect.bottom ⟨0, 0, w, h⟩ = h.toNat := by simp [Rect.bottom]
  have hzero : (0 : Int32).toInt = 0 := rfl
  simp only [hright, hbottom, hzero] at h₁ h₂ h₃ h₄
  show (0 ≤ r.x.toInt ∧ r.right ≤ w.toNat) ∧ 0 ≤ r.y.toInt ∧ r.bottom ≤ h.toNat
  omega

/-- No pixel is in both. -/
def Rect.Apart (a b : Rect) : Prop := ∀ p, ¬ (a.Has p ∧ b.Has p)

theorem apart_of_not_overlaps {a b : Rect} (h : a.overlaps b = false) : a.Apart b := by
  rintro p ⟨ha, hb⟩
  have hover : a.overlaps b = true := by
    rw [Rect.overlaps_iff]
    unfold Rect.Has at ha hb
    omega
  rw [hover] at h
  cases h

theorem firstOverlap_some {rs : List Rect} {i j : Nat} (h : firstOverlap rs = some (i, j)) : i < j ∧ j < rs.length := by
  obtain ⟨l₁, i', l₂, hrange, hi', -⟩ := findSome?_eq_some_iff.mp h
  obtain ⟨a, ha, hj⟩ := bind_eq_some_iff.mp hi'
  obtain ⟨k, hk, heq⟩ := map_eq_some_iff.mp hj
  obtain ⟨hlt, -⟩ := findIdx?_eq_some_iff_getElem.mp hk
  cases heq
  rw [length_drop] at hlt
  omega

/-- No overlap is missed. -/
theorem firstOverlap_none {rs : List Rect} (h : firstOverlap rs = none) : rs.Pairwise Rect.Apart := by
  rw [pairwise_iff_getElem]
  intro i j hi hj hij
  have hi' := findSome?_eq_none_iff.mp h i (mem_range.mpr hi)
  rw [getElem?_eq_getElem hi, bind_some, map_eq_none_iff, findIdx?_eq_none_iff] at hi'
  refine apart_of_not_overlaps (hi' _ (mem_drop_iff_getElem.mpr ⟨j - (i + 1), by omega, ?_⟩))
  congr 1
  omega

/-- Merging keeps what is covered. -/
theorem mergeAll_spec (S : Shapes Rect (Int × Int)) (hS : S.join = Rect.union) (rs : List Rect) :
    (mergeAll rs).Pairwise Rect.Apart ∧ Coarser S rs (mergeAll rs) := by
  induction rs using mergeAll.induct with
  | case1 rs hnone =>
    rw [mergeAll, hnone]
    exact ⟨firstOverlap_none hnone, Coarser.refl rs⟩
  | case2 rs i j hsome h ih =>
    rw [mergeAll, hsome]
    simp only [dif_pos h]
    refine ⟨ih.1, Coarser.trans ?_ ih.2⟩
    have hlen := swapRemove_length h.2
    have hi : i < (swapRemove rs j).length := by omega
    have hsame : (swapRemove rs j)[i] = rs.get ⟨i, by omega⟩ := getElem_swapRemove h.1 h.2
    have hperm : rs.Perm (rs.get ⟨i, by omega⟩ :: rs.get ⟨j, h.2⟩ :: (swapRemove rs j).eraseIdx i) := by
      rw [← hsame]
      exact (swapRemove_perm h.2).trans
        (((getElem_cons_eraseIdx_perm hi).symm.cons _).trans (List.Perm.swap _ _ _))
    refine Coarser.join hperm ?_
    rw [hS]
    exact (set_perm_cons_eraseIdx hi _).symm
  | case3 rs i j hsome h => exact absurd (firstOverlap_some hsome) h

theorem coalesceDamage_spec (g : MinimalRenderGraph) (maxRects : Nat) (S : Shapes Rect (Int × Int))
    (hS : S.join = Rect.union) : (coalesceDamage g maxRects).damageRegions.Pairwise Rect.Apart ∧
      Coarser S g.damageRegions (coalesceDamage g maxRects).damageRegions := by
  obtain ⟨hapart, hcoarser⟩ := mergeAll_spec S hS g.damageRegions
  unfold coalesceDamage
  split
  · rename_i hshort
    refine ⟨?_, Coarser.refl _⟩
    rcases hd : g.damageRegions with _ | ⟨r, _ | ⟨r', rs⟩⟩
    · exact .nil
    · exact pairwise_singleton _ _
    · simp [hd] at hshort
  · simp only
    split
    · cases hm : mergeAll g.damageRegions with
      | nil =>
        rw [hm] at hcoarser
        exact ⟨.nil, hcoarser⟩
      | cons r rs =>
        rw [hm] at hcoarser
        refine ⟨pairwise_singleton _ _, hcoarser.trans ?_⟩
        rw [← hS]
        exact Coarser.collapse r rs
    · exact ⟨hapart, hcoarser⟩

/-! ## The result -/

/-- OCCLUSION IS INVISIBLE: nodes marked as occluded show on no pixel of the screen, clips lie under opaque nodes above,
    and the damage ends apart and covers the dirty nodes that are left. -/
theorem occlusion_invisible (g : MinimalRenderGraph) (hsorted : g.nodes.Pairwise fun a b => a.zIndex ≤ b.zIndex) :
    let g' := (computeOcclusion g).1
    (∀ (i : Nat) (node : RenderNode), g'.nodes[i]? = some node → node.isOccluded = true → ∀ p, node.globalBounds.Has p → g.screenRect.Has p →
      Invisible g.nodes i p) ∧
    (∀ (i : Nat) (node : RenderNode), g'.nodes[i]? = some node → ∀ r ∈ node.clipRegions, ∀ p, r.Has p → ∃ j above,
      i < j ∧ g.nodes[j]? = some above ∧ above.isOpaque = true ∧ above.globalBounds.Has p) ∧
    ∀ maxRects, (coalesceDamage g' maxRects).damageRegions.Pairwise Rect.Apart ∧
      ∀ (i : Nat) (node : RenderNode), g'.nodes[i]? = some node → node.isDirty = true → node.isOccluded = false → ∀ p,
        node.globalBounds.Has p → g.screenRect.Has p → ∃ r ∈ (coalesceDamage g' maxRects).damageRegions, r.Has p := by
  have habove : ∀ {i : Nat} {a : RenderNode}, a ∈ g.nodes.drop (i + 1) → ∃ j, i < j ∧ g.nodes[j]? = some a := by
    intro i a ha
    obtain ⟨k, hk⟩ := mem_iff_getElem?.mp ha
    rw [getElem?_drop] at hk
    exact ⟨i + 1 + k, by omega, hk⟩
  refine ⟨fun i node hget hocc p hp hs => ?_, fun i node hget r hr p hp => ?_, fun maxRects => ?_⟩
  · obtain ⟨node₀, damage, -, hjudged, -⟩ := occludeFrom_get _ _ _ i node hget
    rw [hjudged.bounds] at hp
    obtain ⟨a, ha, hsolid, hcover⟩ := hjudged.occluded hocc p hp hs
    obtain ⟨j, hij, hj⟩ := habove ha
    intro C draw hdraw alt c
    exact paint_hidden hsorted hij hj hcover (hdraw j a hj hsolid p) alt c
  · obtain ⟨node₀, damage, -, hjudged, -⟩ := occludeFrom_get _ _ _ i node hget
    obtain ⟨a, ha, hsolid, hcover⟩ := hjudged.clips r hr p hp
    obtain ⟨j, hij, hj⟩ := habove ha
    exact ⟨j, a, hij, hj, hsolid, hcover⟩
  · obtain ⟨hapart, hcoarser⟩ :=
      coalesceDamage_spec (computeOcclusion g).1 maxRects (onScreen g.screenWidth g.screenHeight) rfl
    refine ⟨hapart, fun i node hget hdirty hocc p hp hs => ?_⟩
    obtain ⟨node₀, damage, -, hjudged, hmem⟩ := occludeFrom_get _ _ _ i node hget
    rw [hjudged.bounds] at hp
    rw [hjudged.dirty] at hdirty
    obtain ⟨r, hr, hrp⟩ := hjudged.damaged hocc hdirty p hp hs
    refine (hcoarser fun r' hr' => ?_).2 p ⟨r, hmem r hr, hrp⟩
    obtain ⟨a, ha⟩ := occludeFrom_damage _ _ _ r' hr'
    exact onScreen_of_intersection ha

/-- A window behind a larger opaque one. -/
def covered : MinimalRenderGraph where
  nodes := [⟨1, ⟨0, 0, 100, 100⟩, true, true, false, []⟩, ⟨10, ⟨0, 0, 200, 200⟩, true, true, false, []⟩]
  damageRegions := []
  screenWidth := 1024
  screenHeight := 768

theorem occlusion_invisible_covered : ∃ node, (computeOcclusion covered).1.nodes[0]? = some node ∧
    node.isOccluded = true ∧ Invisible covered.nodes 0 (50, 50) := by
  have hocc : ((computeOcclusion covered).1.nodes[0]?.map RenderNode.isOccluded) = some true := by decide +kernel
  obtain ⟨node, hget, hmark⟩ := map_eq_some_iff.mp hocc
  have hbounds : ((computeOcclusion covered).1.nodes[0]?.map RenderNode.globalBounds) = some ⟨0, 0, 100, 100⟩ := by
    decide +kernel
  rw [hget] at hbounds
  have hsorted : covered.nodes.Pairwise fun a b => a.zIndex ≤ b.zIndex := by decide
  refine ⟨node, hget, hmark, (occlusion_invisible covered hsorted).1 0 node hget hmark (50, 50) ?_ (by decide)⟩
  rw [some.inj hbounds]
  decide

end Folkering.Gfx
