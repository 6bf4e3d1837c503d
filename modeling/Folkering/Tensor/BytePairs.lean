/-
  BYTE-PAIR ENCODING of a segment (libtensor/tokenizer.rs): `encode_bpe_segment`.

  The bytes become tokens, leniently decoded; then rounds of merging follow.  A round looks for the adjacent pair of the
  lowest rank, with a binary search in the merges sorted by heapsort, and merges ALL its occurrences from the left.
  The textbook procedure merges one occurrence, the leftmost, and looks again.
    * `findMerge_iff`    — sorting and searching find the merge of a pair;
    * `mergeAll_steps`   — a round is a sequence of leftmost steps, if results are used by later merges only;
    * `encodeBpeSegment_rounds` — what is returned, for every merge list and for those lists.
  With a merge that uses the result of a later one the two procedures part: `rounds_not_leftmost`.
-/
import Folkering.Lib.Heapsort

namespace Folkering.Tensor

open Heapsort Relation List

/-- The largest 32-bit number. -/
def u32Max : Nat := 2 ^ 32 - 1
/-- The byte has no token. -/
def byteTokenNone : Nat := u32Max
/-- The size of the working array. -/
def maxBpeWork : Nat := 2048

/-- Two tokens, what they merge into, and when. -/
structure MergeEntry where
  left : Nat
  right : Nat
  merged : Nat
  rank : Nat
deriving Repr, DecidableEq, Inhabited

/-- The order of the merge table. -/
def mergeLt (a b : MergeEntry) : Bool := a.left < b.left || (a.left == b.left && a.right < b.right)

/-- The merge table as it is searched. -/
def heapsortMerges (merges : List MergeEntry) : Nat → MergeEntry :=
  heapsort mergeLt merges.length fun i => merges.getD i default

/-- What encoding a segment uses of the tokenizer. -/
structure BpeTokenizer where
  merges : Nat → MergeEntry
  nMerges : Nat
  byteTokens : UInt8 → Nat
  replacementToken : Nat

/-- The tokenizer with this list of merges. -/
def BpeTokenizer.ofMerges (merges : List MergeEntry) (byteTokens : UInt8 → Nat) (replacementToken : Nat) : BpeTokenizer :=
  ⟨heapsortMerges merges, merges.length, byteTokens, replacementToken⟩

/-! ## Bytes to tokens -/

/-- The length a lead byte announces. -/
def sequenceLength (b : UInt8) : Nat :=
  if 0xC0 ≤ b ∧ b ≤ 0xDF then 2 else if 0xE0 ≤ b ∧ b ≤ 0xEF then 3 else if 0xF0 ≤ b ∧ b ≤ 0xF4 then 4 else 0

/-- A sequence of more bytes than its code point needs. -/
def isOverlong : List UInt8 → Bool
  | [b, _] => b ≤ 0xC1
  | [b, b1, _] => b == 0xE0 && b1 < 0xA0
  | [b, b1, _, _] => b == 0xF0 && b1 < 0x90
  | _ => false

/-- The code point of a sequence of two to four bytes. -/
def codePoint : List UInt8 → Nat
  | [b, b1] => (b.toNat &&& 0x1F) <<< 6 ||| (b1.toNat &&& 0x3F)
  | [b, b1, b2] => (b.toNat &&& 0x0F) <<< 12 ||| (b1.toNat &&& 0x3F) <<< 6 ||| (b2.toNat &&& 0x3F)
  | [b, b1, b2, b3] =>
    (b.toNat &&& 0x07) <<< 18 ||| (b1.toNat &&& 0x3F) <<< 12 ||| (b2.toNat &&& 0x3F) <<< 6 ||| (b3.toNat &&& 0x3F)
  | _ => 0

namespace BpeTokenizer

/-- The token of a byte, if the vocabulary has one. -/
def byteToken? (t : BpeTokenizer) (b : UInt8) : Option Nat :=
  if t.byteTokens b = byteTokenNone then none else some (t.byteTokens b)

/-- The tokens of a sequence of bytes that is well formed. -/
def sequenceTokens (t : BpeTokenizer) (sequence : List UInt8) : List Nat :=
  if isOverlong sequence then
    if codePoint sequence < 256 then (t.byteToken? (UInt8.ofNat (codePoint sequence))).toList else [t.replacementToken]
  else sequence.filterMap t.byteToken?

/-- The first step of `encode_bpe_segment`, from some byte on. -/
def initialTokens (t : BpeTokenizer) : Nat → List UInt8 → List Nat
  | 0, _ => []
  | _ + 1, [] => []
  | fuel + 1, b :: rest =>
    if b < 0x80 then (t.byteToken? b).getD t.replacementToken :: initialTokens t fuel rest
    else
      let seqLen := sequenceLength b
      let sequence := (b :: rest).take seqLen
      if 2 ≤ seqLen ∧ seqLen ≤ (b :: rest).length ∧ ((sequence.drop 1).all fun c => c &&& 0xC0 == 0x80) = true then
        t.sequenceTokens sequence ++ initialTokens t fuel ((b :: rest).drop seqLen)
      else t.replacementToken :: initialTokens t fuel rest

/-- The tokens before any merge. -/
def textTokens (t : BpeTokenizer) (text : List UInt8) : List Nat := t.initialTokens text.length text

/-! ## Merging -/

/-- The merge of a pair of tokens. -/
def findMerge (t : BpeTokenizer) (left right : Nat) : Option MergeEntry :=
  search (fun e => e.left < left || (e.left == left && e.right < right)) (fun e => e.left == left && e.right == right)
    t.merges (t.nMerges + 1) 0 t.nMerges

/-- The merge of the lowest rank for two tokens that are next to each other, if it is better than `best`. -/
def bestMerge (find : Nat → Nat → Option MergeEntry) (best : MergeEntry) : List Nat → MergeEntry
  | x :: y :: rest =>
    match find x y with
    | some entry => bestMerge find (if entry.rank < best.rank then entry else best) (y :: rest)
    | none => bestMerge find best (y :: rest)
  | _ => best

/-- Merges all occurrences. -/
def mergeAll (e : MergeEntry) : List Nat → List Nat
  | x :: y :: rest => if x = e.left ∧ y = e.right then e.merged :: mergeAll e rest else x :: mergeAll e (y :: rest)
  | w => w

/-- The rounds; each makes the sequence shorter, so that its length is enough fuel. -/
def mergeLoop (find : Nat → Nat → Option MergeEntry) : Nat → List Nat → List Nat
  | 0, w => w
  | fuel + 1, w =>
    let best := bestMerge find ⟨0, 0, 0, u32Max⟩ w
    if best.rank = u32Max then w else mergeLoop find fuel (mergeAll best w)

/-- `encode_bpe_segment` into a buffer of `outLen` tokens. -/
def encodeBpeSegment (t : BpeTokenizer) (text : List UInt8) (outLen : Nat) : List Nat :=
  if text.isEmpty ∨ outLen = 0 then []
  else
    let work := t.textTokens (text.take maxBpeWork)
    (mergeLoop t.findMerge work.length work).take outLen

end BpeTokenizer

open BpeTokenizer

/-! ## What the rounds are for -/

/-- A list of merges with distinct pairs; the ranks are positions in a list. -/
structure MergeList (merges : List MergeEntry) : Prop where
  pairs : (merges.map fun e => (e.left, e.right)).Nodup
  ranks : (merges.map MergeEntry.rank).Nodup
  small : ∀ e ∈ merges, e.rank < u32Max

/-- The merge is the one of the lowest rank for tokens that are next to each other. -/
def Lowest (merges : List MergeEntry) (w : List Nat) (e : MergeEntry) : Prop :=
  e ∈ merges ∧ [e.left, e.right] <:+: w ∧ ∀ e' ∈ merges, [e'.left, e'.right] <:+: w → e.rank ≤ e'.rank

/-- Merging the leftmost occurrence. -/
def LeftmostStep (merges : List MergeEntry) (w w' : List Nat) : Prop :=
  ∃ e, Lowest merges w e ∧ ∃ a b, w = a ++ e.left :: e.right :: b ∧ w' = a ++ e.merged :: b ∧
    (a ++ [e.left]).IsChain fun x y => ¬ (x = e.left ∧ y = e.right)

/-- Merging all occurrences from the left. -/
def RoundStep (merges : List MergeEntry) (w w' : List Nat) : Prop := ∃ e, Lowest merges w e ∧ w' = mergeAll e w

/-- No listed pair is adjacent. -/
def Final (merges : List MergeEntry) (w : List Nat) : Prop := ∀ e ∈ merges, ¬ [e.left, e.right] <:+: w

/-- The result of a merge occurs in merges of a higher rank only. -/
def ResultsLater (merges : List MergeEntry) : Prop :=
  ∀ e ∈ merges, ∀ e' ∈ merges, e'.left = e.merged ∨ e'.right = e.merged → e.rank < e'.rank

/-! ## Finding a merge -/

/-- The pair, in the order of the table. -/
def MergeEntry.pair (e : MergeEntry) : Nat ×ₗ Nat := toLex (e.left, e.right)

theorem mergeLt_iff (a b : MergeEntry) : mergeLt a b = true ↔ a.pair < b.pair := by
  simp [mergeLt, MergeEntry.pair, Prod.Lex.toLex_lt_toLex]

theorem pair_eq_iff (e : MergeEntry) (left right : Nat) :
    e.pair = toLex (left, right) ↔ e.left = left ∧ e.right = right := by
  simp [MergeEntry.pair]

theorem mem_heapsortMerges (merges : List MergeEntry) (e : MergeEntry) :
    (∃ i < merges.length, heapsortMerges merges i = e) ↔ e ∈ merges := by
  have hlist : (List.range merges.length).map (fun i => merges.getD i default) = merges := by
    apply ext_getElem
    · simp
    · intro i h h'
      rw [getElem_map, getElem_range, getD_eq_getElem _ _ h']
  have hperm := heapsort_perm mergeLt merges.length fun i => merges.getD i default
  rw [hlist] at hperm
  rw [← hperm.mem_iff]
  simp [heapsortMerges]

variable {merges : List MergeEntry}

theorem findMerge_iff (h : MergeList merges) (byteTokens : UInt8 → Nat)
    (replacementToken left right : Nat) (e : MergeEntry) :
    (ofMerges merges byteTokens replacementToken).findMerge left right = some e ↔
      e ∈ merges ∧ e.left = left ∧ e.right = right := by
  have hspec := @search_spec MergeEntry (Nat ×ₗ Nat) _ MergeEntry.pair
    (fun e => e.left < left || (e.left == left && e.right < right)) (fun e => e.left == left && e.right == right)
    (toLex (left, right)) (heapsortMerges merges) (by simp [MergeEntry.pair, Prod.Lex.toLex_lt_toLex])
    (by simp [MergeEntry.pair]) merges.length (fun i j hij hj => heapsort_sorted mergeLt_iff _ _ hij hj)
    (merges.length + 1) 0 merges.length (by omega) (Nat.le_refl _) (by simp) (by omega)
  rcases hspec with ⟨i, hi, hfind, hkey⟩ | ⟨hfind, hnone⟩
  · have hmem := (mem_heapsortMerges merges _).mp ⟨i, hi, rfl⟩
    have hpair := (pair_eq_iff _ _ _).mp hkey
    constructor
    · intro hsome
      obtain rfl := Option.some.inj (hfind.symm.trans hsome)
      exact ⟨hmem, hpair⟩
    · rintro ⟨he, hleft, hright⟩
      refine hfind.trans (congrArg some ?_)
      exact inj_on_of_nodup_map h.pairs hmem he (by rw [hpair.1, hpair.2, hleft, hright])
  · constructor
    · intro hsome
      cases hfind.symm.trans hsome
    · rintro ⟨he, hpair⟩
      obtain ⟨i, hi, rfl⟩ := (mem_heapsortMerges merges e).mpr he
      exact absurd ((pair_eq_iff _ _ _).mpr hpair) (hnone i hi)

/-! ## One round -/

theorem pair_in_cons {x y a b : Nat} {rest : List Nat} :
    [x, y] <:+: a :: b :: rest ↔ x = a ∧ y = b ∨ [x, y] <:+: b :: rest := by
  rw [infix_cons_iff]
  simp

theorem no_pair_in {x y : Nat} {w : List Nat} (hshort : ∀ a b rest, w = a :: b :: rest → False) :
    ¬ [x, y] <:+: w := by
  intro hxy
  have hlen := hxy.length_le
  cases w with
  | nil => simp at hlen
  | cons a w =>
    cases w with
    | nil => simp at hlen
    | cons b w => exact hshort a b w rfl

/-- The best merge of a sequence, against the one to beat. -/
theorem bestMerge_spec (find : Nat → Nat → Option MergeEntry) (best : MergeEntry) (w : List Nat) :
    (bestMerge find best w = best ∨ ∃ x y, [x, y] <:+: w ∧ find x y = some (bestMerge find best w)) ∧
    (bestMerge find best w).rank ≤ best.rank ∧
    ∀ x y e, [x, y] <:+: w → find x y = some e → (bestMerge find best w).rank ≤ e.rank := by
  fun_induction bestMerge find best w with
  | case1 best a b rest entry hentry ih =>
    obtain ⟨hfrom, hle, hall⟩ := ih
    have hbetter : (if entry.rank < best.rank then entry else best).rank ≤ best.rank ∧
        (if entry.rank < best.rank then entry else best).rank ≤ entry.rank := by
      split_ifs <;> omega
    refine ⟨?_, hle.trans hbetter.1, ?_⟩
    · rcases hfrom with hsame | ⟨x, y, hxy, hfind⟩
      · rw [hsame]
        split_ifs
        · exact Or.inr ⟨a, b, pair_in_cons.mpr (Or.inl ⟨rfl, rfl⟩), hentry⟩
        · exact Or.inl rfl
      · exact Or.inr ⟨x, y, pair_in_cons.mpr (Or.inr hxy), hfind⟩
    · intro x y e hxy he
      rcases pair_in_cons.mp hxy with ⟨rfl, rfl⟩ | hxy
      · obtain rfl := Option.some.inj (hentry.symm.trans he)
        exact hle.trans hbetter.2
      · exact hall x y e hxy he
  | case2 best a b rest hnone ih =>
    obtain ⟨hfrom, hle, hall⟩ := ih
    refine ⟨?_, hle, ?_⟩
    · rcases hfrom with hsame | ⟨x, y, hxy, hfind⟩
      · exact Or.inl hsame
      · exact Or.inr ⟨x, y, pair_in_cons.mpr (Or.inr hxy), hfind⟩
    · intro x y e hxy he
      rcases pair_in_cons.mp hxy with ⟨rfl, rfl⟩ | hxy
      · cases hnone.symm.trans he
      · exact hall x y e hxy he
  | case3 w best hshort => exact ⟨Or.inl rfl, Nat.le_refl _, fun x y e hxy _ => absurd hxy (no_pair_in hshort)⟩

/-- A round finds the merge of the lowest rank, or there is none. -/
theorem bestMerge_lowest (h : MergeList merges) {find : Nat → Nat → Option MergeEntry}
    (hfind : ∀ left right e, find left right = some e ↔ e ∈ merges ∧ e.left = left ∧ e.right = right) (w : List Nat) :
    if (bestMerge find ⟨0, 0, 0, u32Max⟩ w).rank = u32Max then Final merges w
    else Lowest merges w (bestMerge find ⟨0, 0, 0, u32Max⟩ w) := by
  obtain ⟨hfrom, _, hall⟩ := bestMerge_spec find ⟨0, 0, 0, u32Max⟩ w
  have hmin : ∀ e ∈ merges, [e.left, e.right] <:+: w → (bestMerge find ⟨0, 0, 0, u32Max⟩ w).rank ≤ e.rank :=
    fun e he hadj => hall _ _ e hadj ((hfind _ _ _).mpr ⟨he, rfl, rfl⟩)
  split_ifs with hrank
  · intro e he hadj
    have hle := hmin e he hadj
    have hsmall := h.small e he
    omega
  · rcases hfrom with hsame | ⟨x, y, hxy, hbest⟩
    · rw [hsame] at hrank
      exact absurd rfl hrank
    · obtain ⟨hmem, rfl, rfl⟩ := (hfind _ _ _).mp hbest
      exact ⟨hmem, hxy, hmin⟩

theorem mergeAll_length (e : MergeEntry) (w : List Nat) :
    (mergeAll e w).length ≤ w.length ∧ ([e.left, e.right] <:+: w → (mergeAll e w).length < w.length) := by
  fun_induction mergeAll e w with
  | case1 x y rest hpair ih =>
    simp only [length_cons]
    omega
  | case2 x y rest hpair ih =>
    simp only [length_cons] at ih ⊢
    refine ⟨by omega, fun hadj => ?_⟩
    rcases pair_in_cons.mp hadj with ⟨hx, hy⟩ | hadj
    · exact absurd ⟨hx.symm, hy.symm⟩ hpair
    · have hlt := ih.2 hadj
      omega
  | case3 w hshort => exact ⟨Nat.le_refl _, fun hadj => absurd hadj (no_pair_in hshort)⟩

/-- The rounds end, and no listed pair is left. -/
theorem mergeLoop_rounds (h : MergeList merges) {find : Nat → Nat → Option MergeEntry}
    (hfind : ∀ left right e, find left right = some e ↔ e ∈ merges ∧ e.left = left ∧ e.right = right) {fuel : Nat}
    {w : List Nat} (hfuel : w.length ≤ fuel) :
    ReflTransGen (RoundStep merges) w (mergeLoop find fuel w) ∧ Final merges (mergeLoop find fuel w) := by
  induction fuel generalizing w with
  | zero =>
    obtain rfl : w = [] := length_eq_zero_iff.mp (Nat.le_zero.mp hfuel)
    exact ⟨ReflTransGen.refl, fun e _ hadj => absurd hadj (no_pair_in fun a b rest hnil => by cases hnil)⟩
  | succ fuel ih =>
    have hround := bestMerge_lowest h hfind w
    simp only [mergeLoop]
    split_ifs at hround ⊢
    · exact ⟨ReflTransGen.refl, hround⟩
    · have hshorter := (mergeAll_length _ w).2 hround.2.1
      obtain ⟨hsteps, hfinal⟩ := ih (Nat.le_of_lt_succ (hshorter.trans_le hfuel))
      exact ⟨ReflTransGen.head ⟨_, hround, rfl⟩ hsteps, hfinal⟩

/-! ## Rounds and leftmost steps -/

/-- Listed pairs that are adjacent have at least this rank. -/
def AtLeast (merges : List MergeEntry) (rank : Nat) (w : List Nat) : Prop :=
  w.IsChain fun x y => ∀ e ∈ merges, e.left = x → e.right = y → rank ≤ e.rank

theorem atLeast_iff {rank : Nat} {w : List Nat} :
    AtLeast merges rank w ↔ ∀ e ∈ merges, [e.left, e.right] <:+: w → rank ≤ e.rank := by
  rw [AtLeast, isChain_iff_forall_rel_of_append_cons_cons]
  constructor
  · rintro h e he ⟨a, b, hw⟩
    rw [append_assoc] at hw
    exact h hw.symm e he rfl rfl
  · rintro h x y a b rfl e he rfl rfl
    exact h e he ⟨a, b, by simp⟩

/-- **A round is a sequence of leftmost steps.**  The part before `w` was dealt with; what a step makes there is no part
of a merge of this or a lower rank. -/
theorem mergeAll_steps (hlater : ResultsLater merges) {e : MergeEntry} (he : e ∈ merges)
    (front w : List Nat) (hfront : (front ++ w.take 1).IsChain fun x y => ¬ (x = e.left ∧ y = e.right))
    (hrank : AtLeast merges e.rank (front ++ w)) :
    ReflTransGen (LeftmostStep merges) (front ++ w) (front ++ mergeAll e w) := by
  fun_induction mergeAll e w generalizing front with
  | case1 x y rest hpair ih =>
    obtain ⟨rfl, rfl⟩ := hpair
    have hlow : Lowest merges (front ++ e.left :: e.right :: rest) e :=
      ⟨he, ⟨front, rest, by simp⟩, atLeast_iff.mp hrank⟩
    have hstep : LeftmostStep merges (front ++ e.left :: e.right :: rest) (front ++ e.merged :: rest) :=
      ⟨e, hlow, front, rest, rfl, rfl, hfront⟩
    have hself : e.merged ≠ e.left ∧ e.merged ≠ e.right :=
      ⟨fun heq => absurd (hlater e he e he (Or.inl heq.symm)) (lt_irrefl _),
        fun heq => absurd (hlater e he e he (Or.inr heq.symm)) (lt_irrefl _)⟩
    have hnext := ih (front ++ [e.merged]) ?_ ?_
    · simp only [append_assoc, singleton_append] at hnext
      exact ReflTransGen.head hstep hnext
    · -- the new token is not part of the pair
      rw [append_assoc, isChain_append]
      refine ⟨(isChain_append.mp hfront).1, ?_, ?_⟩
      · cases rest with
        | nil => simp
        | cons z rest => simp [hself.1]
      · rintro x _ y hy ⟨_, rfl⟩
        exact hself.2 (by simpa using hy)
    · -- and merges of it come later
      have hold := isChain_append.mp hrank
      rw [append_assoc, AtLeast, isChain_append]
      refine ⟨hold.1, ?_, ?_⟩
      · have hrest := hold.2.1.tail.tail
        cases rest with
        | nil => simp
        | cons z rest =>
          refine isChain_cons_cons.mpr ⟨?_, hrest⟩
          exact fun e' he' hleft _ => (hlater e he e' he' (Or.inl hleft)).le
      · intro x _ y hy e' he' _ hright
        obtain rfl : y = e.merged := by simpa using hy.symm
        exact (hlater e he e' he' (Or.inr hright)).le
  | case2 x y rest hpair ih =>
    have hnext := ih (front ++ [x]) ?_ ?_
    · simp only [append_assoc, singleton_append] at hnext
      exact hnext
    · rw [isChain_append]
      refine ⟨by simpa using hfront, by simp, ?_⟩
      rintro x' hx' y' hy' ⟨rfl, rfl⟩
      refine hpair ⟨?_, ?_⟩
      · simpa using hx'
      · simpa using hy'
    · simpa using hrank
  | case3 w hshort => exact ReflTransGen.refl

theorem RoundStep.leftmost (hlater : ResultsLater merges) {w w' : List Nat}
    (h : RoundStep merges w w') : ReflTransGen (LeftmostStep merges) w w' := by
  obtain ⟨e, ⟨he, _, hmin⟩, rfl⟩ := h
  refine mergeAll_steps hlater he [] w ?_ (atLeast_iff.mpr hmin)
  cases w <;> simp

theorem rounds_leftmost (hlater : ResultsLater merges) {w w' : List Nat}
    (h : ReflTransGen (RoundStep merges) w w') : ReflTransGen (LeftmostStep merges) w w' := by
  induction h with
  | refl => exact ReflTransGen.refl
  | tail _ hround ih => exact ih.trans (hround.leftmost hlater)

/-- Two leftmost occurrences are the same. -/
theorem leftmost_unique {l r : Nat} {a b a' b' : List Nat} (h : a ++ l :: r :: b = a' ++ l :: r :: b')
    (ha : (a ++ [l]).IsChain fun x y => ¬ (x = l ∧ y = r)) (ha' : (a' ++ [l]).IsChain fun x y => ¬ (x = l ∧ y = r)) :
    a = a' ∧ b = b' := by
  -- an occurrence inside the part before the other one
  have hearlier : ∀ {a a' b b' c : List Nat}, a' = a ++ c → l :: r :: b = c ++ l :: r :: b' →
      (a' ++ [l]).IsChain (fun x y => ¬ (x = l ∧ y = r)) → c = [] := by
    rintro a _ b b' c rfl hc hchain
    cases c with
    | nil => rfl
    | cons x c =>
      obtain ⟨rfl, hnext⟩ := List.cons.inj hc
      -- the second token of the pair is there, too
      obtain ⟨tail, htail⟩ : ∃ tail, c ++ [l] = r :: tail := by
        cases c with
        | nil => exact ⟨[], by rw [(List.cons.inj hnext).1]; rfl⟩
        | cons y c => exact ⟨c ++ [l], by rw [(List.cons.inj hnext).1]; rfl⟩
      have hword : a ++ l :: c ++ [l] = a ++ l :: r :: tail := by
        rw [← htail]
        simp
      exact absurd ⟨rfl, rfl⟩ (isChain_iff_forall_rel_of_append_cons_cons.mp hchain hword)
  rcases append_eq_append_iff.mp h with ⟨c, hc, hrest⟩ | ⟨c, hc, hrest⟩
  · obtain rfl := hearlier hc hrest ha'
    exact ⟨by simpa using hc.symm, by simpa using hrest⟩
  · obtain rfl := hearlier hc hrest ha
    exact ⟨by simpa using hc, by simpa using hrest.symm⟩

theorem leftmostStep_unique (h : MergeList merges) : Relator.RightUnique (LeftmostStep merges) := by
  rintro w w₁ w₂ ⟨e, ⟨he, hadj, hmin⟩, a, b, rfl, rfl, ha⟩ ⟨e', ⟨he', hadj', hmin'⟩, a', b', hw, rfl, ha'⟩
  obtain rfl : e = e' := inj_on_of_nodup_map h.ranks he he' (Nat.le_antisymm (hmin e' he' hadj') (hmin' e he hadj))
  obtain ⟨rfl, rfl⟩ := leftmost_unique hw ha ha'
  rfl

theorem Final.no_step {w w' : List Nat} (h : Final merges w) : ¬ LeftmostStep merges w w' := by
  rintro ⟨e, ⟨he, hadj, _⟩, _⟩
  exact h e he hadj

theorem Final.unique (h : MergeList merges) {w out out' : List Nat}
    (hout : ReflTransGen (LeftmostStep merges) w out) (hfinal : Final merges out)
    (hout' : ReflTransGen (LeftmostStep merges) w out') (hfinal' : Final merges out') : out' = out := by
  rcases hout.total_of_right_unique (leftmostStep_unique h) hout' with hfrom | hfrom
  · rcases hfrom.cases_head with heq | ⟨_, hstep, _⟩
    · exact heq.symm
    · exact absurd hstep hfinal.no_step
  · rcases hfrom.cases_head with heq | ⟨_, hstep, _⟩
    · exact heq
    · exact absurd hstep hfinal'.no_step

/-- **Segments.**  For every list of merges with distinct pairs, encoding a segment ends, with the tokens that merging all
occurrences of the lowest pair round by round leads to, and no listed pair is left.  If results of merges occur in later
merges only, these are the tokens to which merging the leftmost occurrence of the lowest pair leads, step by step. -/
theorem encodeBpeSegment_rounds {merges : List MergeEntry} (h : MergeList merges) (byteTokens : UInt8 → Nat)
    (replacementToken : Nat) {text : List UInt8} (htext : text.length ≤ maxBpeWork) (outLen : Nat) :
    ∃ out, (ofMerges merges byteTokens replacementToken).encodeBpeSegment text outLen = out.take outLen ∧
      Final merges out ∧
      ReflTransGen (RoundStep merges) ((ofMerges merges byteTokens replacementToken).textTokens text) out ∧
      (ResultsLater merges →
        ReflTransGen (LeftmostStep merges) ((ofMerges merges byteTokens replacementToken).textTokens text) out ∧
        ∀ out', ReflTransGen (LeftmostStep merges) ((ofMerges merges byteTokens replacementToken).textTokens text) out' →
          Final merges out' → out' = out) := by
  obtain ⟨t, ht⟩ : ∃ t, t = ofMerges merges byteTokens replacementToken := ⟨_, rfl⟩
  rw [← ht]
  have hfind : ∀ left right e, t.findMerge left right = some e ↔ e ∈ merges ∧ e.left = left ∧ e.right = right := by
    rw [ht]
    exact findMerge_iff h byteTokens replacementToken
  obtain ⟨hrounds, hfinal⟩ := mergeLoop_rounds h hfind (Nat.le_refl (t.textTokens text).length)
  refine ⟨mergeLoop t.findMerge (t.textTokens text).length (t.textTokens text), ?_, hfinal, hrounds, fun hlater => ?_⟩
  · rw [encodeBpeSegment, take_of_length_le htext]
    split_ifs with hempty
    · rcases hempty with hnil | rfl
      · rw [List.isEmpty_iff.mp hnil]
        exact (take_nil).symm
      · rfl
    · rfl
  · have hsteps : ReflTransGen (LeftmostStep merges) (t.textTokens text)
        (mergeLoop t.findMerge (t.textTokens text).length (t.textTokens text)) := rounds_leftmost hlater hrounds
    exact ⟨hsteps, fun out' hout' hfinal' => Final.unique h hsteps hfinal hout' hfinal'⟩

/-- `a` and `b` are tokens 0 and 1. -/
def letters (b : UInt8) : Nat := if b = 97 then 0 else if b = 98 then 1 else byteTokenNone

theorem encodeBpeSegment_rounds_pair : ∃ out,
    (ofMerges [⟨0, 1, 2, 0⟩] letters 9).encodeBpeSegment [97, 98, 97] 8 = out.take 8 ∧ Final [⟨0, 1, 2, 0⟩] out :=
  (@encodeBpeSegment_rounds [⟨0, 1, 2, 0⟩] ⟨by decide, by decide, by decide⟩ letters 9 [97, 98, 97] (by decide) 8).imp fun _ h => ⟨h.1, h.2.1⟩

/-- `abab` with the merges (`ab` `a`) and (`a` `b`), in this order: the round makes `ab` `ab`, while the leftmost steps make
`aba` `b`. -/
theorem rounds_not_leftmost : MergeList [⟨2, 0, 3, 0⟩, ⟨0, 1, 2, 1⟩] ∧
    (ofMerges [⟨2, 0, 3, 0⟩, ⟨0, 1, 2, 1⟩] letters 9).textTokens [97, 98, 97, 98] = [0, 1, 0, 1] ∧
    (ofMerges [⟨2, 0, 3, 0⟩, ⟨0, 1, 2, 1⟩] letters 9).encodeBpeSegment [97, 98, 97, 98] 8 = [2, 2] ∧
    ReflTransGen (LeftmostStep [⟨2, 0, 3, 0⟩, ⟨0, 1, 2, 1⟩]) [0, 1, 0, 1] [3, 1] ∧
    Final [⟨2, 0, 3, 0⟩, ⟨0, 1, 2, 1⟩] [3, 1] := by
  refine ⟨⟨by decide, by decide, by decide⟩, by decide, by decide +kernel, ?_, by unfold Final; decide⟩
  refine ReflTransGen.head (b := [2, 0, 1]) ?_ (ReflTransGen.single ?_)
  · exact ⟨⟨0, 1, 2, 1⟩, ⟨by decide, by decide, by decide⟩, [], [0, 1], rfl, rfl, by decide⟩
  · exact ⟨⟨2, 0, 3, 0⟩, ⟨by decide, by decide, by decide⟩, [], [1], rfl, rfl, by decide⟩

end Folkering.Tensor
