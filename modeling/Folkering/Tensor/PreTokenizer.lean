/-
  The PRE-TOKENIZER (libtensor/tokenizer.rs): `pt_next`, and UTF-8.

  A text is cut into segments before it is encoded.  All that `pt_next` looks at is the text from its position on, so that
  the model has this rest of the text for the position.  Bytes from 0x80 on count as letters: a run of letters ends in
  front of an ASCII byte, and no character of more than one byte is cut.
    * `cleanCut_ptNext`      — a segment is not empty, and one of the bytes beside its end is ASCII;
    * `segmentsFrom_flatten` — the segments make up the text;
    * `segmentsFrom_utf8`    — a segment of well-formed UTF-8 is well formed.
-/
import Folkering.Tensor.BytePairs

namespace Folkering.Tensor

open List

/-! ## Segments -/

/-- A letter, or a byte of a longer character. -/
def ptIsLetter (b : UInt8) : Bool := (65 ≤ b && b ≤ 90) || (97 ≤ b && b ≤ 122) || 128 ≤ b
/-- A digit. -/
def ptIsDigit (b : UInt8) : Bool := 48 ≤ b && b ≤ 57
/-- White space. -/
def ptIsWs (b : UInt8) : Bool := b == 32 || b == 9 || b == 10 || b == 13 || b == 0x0B || b == 0x0C
/-- Anything else. -/
def ptIsPunct (b : UInt8) : Bool := !ptIsLetter b && !ptIsDigit b && !ptIsWs b

/-- A contraction: an apostrophe and re, ve, ll, or s, t, m, d. -/
def ptTryContraction : List UInt8 → Nat
  | 39 :: c1 :: c2 :: _ =>
    if (c1 = 114 ∧ c2 = 101) ∨ (c1 = 118 ∧ c2 = 101) ∨ (c1 = 108 ∧ c2 = 108) then 3
    else if c1 = 115 ∨ c1 = 116 ∨ c1 = 109 ∨ c1 = 100 then 2 else 0
  | [39, c1] => if c1 = 115 ∨ c1 = 116 ∨ c1 = 109 ∨ c1 = 100 then 2 else 0
  | _ => 0

/-- The run of letters. -/
def ptLetters (s : List UInt8) : Nat := (s.takeWhile ptIsLetter).length
/-- The run of digits, three at most. -/
def ptDigits (s : List UInt8) : Nat := ((s.take 3).takeWhile ptIsDigit).length
/-- The run of white space. -/
def ptWs (s : List UInt8) : Nat := (s.takeWhile ptIsWs).length
/-- The run of other bytes, one at least. -/
def ptPunct (s : List UInt8) : Nat := max (s.takeWhile ptIsPunct).length 1

/-- The length of a segment that starts with white space. -/
def ptWhitespace (b : UInt8) (rest : List UInt8) : Nat :=
  let ws := ptWs (b :: rest)
  match (b :: rest)[ws]? with
  | none => ws
  | some nextChar =>
    if ptIsDigit nextChar then ws
    else if ws > 1 then ws - 1
    else if b = 32 then if ptIsLetter nextChar then 1 + ptLetters rest else 1 + ptPunct rest
    else 1

/-- `pt_next`: the length of the next segment. -/
def ptNext : List UInt8 → Nat
  | [] => 0
  | b :: rest =>
    if 0 < ptTryContraction (b :: rest) then ptTryContraction (b :: rest)
    else if ptIsLetter b then ptLetters (b :: rest)
    else if ptIsDigit b then ptDigits (b :: rest)
    else if ptIsWs b then ptWhitespace b rest
    else if (rest.head?.any ptIsLetter) = true then 1 + ptLetters rest
    else ptPunct (b :: rest)

/-- The segments of a text. -/
def segmentsFrom : Nat → List UInt8 → List (List UInt8)
  | 0, _ => []
  | _ + 1, [] => []
  | fuel + 1, b :: rest =>
    (b :: rest).take (ptNext (b :: rest)) :: segmentsFrom fuel ((b :: rest).drop (ptNext (b :: rest)))

/-- The segments of a text. -/
def segments (text : List UInt8) : List (List UInt8) := segmentsFrom text.length text

/-! ## Cuts -/

/-- No character of several bytes goes over the cut: one of the bytes beside it is ASCII. -/
def Clean (a b : List UInt8) : Prop := ∀ x ∈ a.getLast?, ∀ y ∈ b.head?, x < 0x80 ∨ y < 0x80

/-- A length that cuts a text cleanly. -/
def CleanCut (s : List UInt8) (n : Nat) : Prop := 1 ≤ n ∧ n ≤ s.length ∧ Clean (s.take n) (s.drop n)

variable {b : UInt8}

theorem ascii_of_not_letter (h : ptIsLetter b = false) : b < 0x80 := by
  simp only [ptIsLetter, Bool.or_eq_false_iff, decide_eq_false_iff_not] at h
  exact UInt8.not_le.mp h.2

theorem ascii_of_digit (h : ptIsDigit b = true) : b < 0x80 := by
  simp only [ptIsDigit, Bool.and_eq_true, decide_eq_true_eq] at h
  exact UInt8.lt_of_le_of_lt h.2 (by decide)

theorem ascii_of_ws (h : ptIsWs b = true) : b < 0x80 := by
  simp only [ptIsWs, Bool.or_eq_true, beq_iff_eq] at h
  rcases h with ((((rfl | rfl) | rfl) | rfl) | rfl) | rfl <;> decide

variable {s : List UInt8}

/-- A cut behind an ASCII byte. -/
theorem CleanCut.of_ascii {n : Nat} (h : s[n]? = some b) (hb : b < 0x80) : CleanCut s (n + 1) := by
  obtain ⟨hn, hget⟩ := List.getElem?_eq_some_iff.mp h
  refine ⟨by omega, hn, fun x hx y _ => Or.inl ?_⟩
  rw [take_add_one, h, Option.toList_some, getLast?_append, getLast?_singleton, Option.some_or,
    Option.mem_some] at hx
  rwa [← hx]

/-- One byte more in front. -/
theorem CleanCut.cons {n : Nat} (h : CleanCut s n) (b : UInt8) : CleanCut (b :: s) (1 + n) := by
  obtain ⟨hn, hle, hclean⟩ := h
  rw [Nat.add_comm]
  refine ⟨by omega, by rw [length_cons]; omega, fun x hx y hy => ?_⟩
  rw [take_succ_cons] at hx
  rw [drop_succ_cons] at hy
  refine hclean x ?_ y hy
  cases htake : s.take n with
  | nil =>
    rw [take_eq_nil_iff] at htake
    rcases htake with rfl | rfl
    · omega
    · simp only [length_nil] at hle
      omega
  | cons z tail =>
    rw [htake, getLast?_cons_cons] at hx
    exact hx

/-- Where a run of bytes ends there is another byte. -/
theorem head_dropWhile {p : UInt8 → Bool} (hb : b ∈ (s.dropWhile p).head?) : p b = false := by
  have hnot := head?_dropWhile_not p s
  rw [Option.mem_def.mp hb] at hnot
  exact hnot

/-- Behind a run of bytes comes one that is not of the kind. -/
theorem not_of_run {p : UInt8 → Bool} {c : UInt8} (h : s[(s.takeWhile p).length]? = some c) : p c = false := by
  have hdrop : (s.takeWhile p ++ s.dropWhile p).drop (s.takeWhile p).length = s.dropWhile p := drop_left
  rw [takeWhile_append_dropWhile] at hdrop
  refine head_dropWhile (s := s) ?_
  rw [Option.mem_def, ← hdrop, head?_drop, h]

/-- A cut behind a run of letters. -/
theorem cleanCut_letters (h : 1 ≤ ptLetters s) : CleanCut s (ptLetters s) := by
  refine ⟨h, ( takeWhile_prefix ptIsLetter).length_le, fun x _ y hy => Or.inr (ascii_of_not_letter ?_)⟩
  refine not_of_run (s := s) ?_
  rwa [Option.mem_def, head?_drop] at hy

/-- A cut in or behind a run of bytes that are ASCII. -/
theorem CleanCut.of_run {p : UInt8 → Bool} (hp : ∀ b, p b = true → b < 0x80) {s : List UInt8} {n : Nat} (hn : 1 ≤ n)
    (hle : n ≤ (s.takeWhile p).length) : CleanCut s n := by
  obtain ⟨m, rfl⟩ : ∃ m, n = m + 1 := ⟨n - 1, by omega⟩
  have hget : s[m]? = (s.takeWhile p)[m]? := by
    conv_lhs => rw [← takeWhile_append_dropWhile (p := p) (l := s)]
    exact getElem?_append_left (by omega)
  rw [getElem?_eq_getElem (show m < (s.takeWhile p).length by omega)] at hget
  exact CleanCut.of_ascii hget (hp _ (mem_takeWhile_imp (getElem_mem _)))

variable {rest : List UInt8}

theorem takeWhile_pos {p : UInt8 → Bool} (h : p b = true) : 1 ≤ ((b :: rest).takeWhile p).length := by
  rw [takeWhile_cons, if_pos h, length_cons]
  omega

theorem cleanCut_punct (h : ptIsPunct b = true) : CleanCut (b :: rest) (ptPunct (b :: rest)) := by
  have hpos : 1 ≤ ((b :: rest).takeWhile ptIsPunct).length := takeWhile_pos h
  rw [ptPunct, Nat.max_eq_left hpos]
  refine CleanCut.of_run (fun c hc => ?_) hpos (Nat.le_refl _)
  simp only [ptIsPunct, Bool.and_eq_true, Bool.not_eq_true'] at hc
  exact ascii_of_not_letter hc.1.1

theorem length_takeWhile_take (p : UInt8 → Bool) (n : Nat) (s : List UInt8) :
    ((s.take n).takeWhile p).length ≤ (s.takeWhile p).length := by
  induction s generalizing n with
  | nil => rw [take_nil]
  | cons b rest ih =>
    cases n with
    | zero => exact Nat.zero_le _
    | succ n =>
      rw [take_succ_cons, takeWhile_cons, takeWhile_cons]
      split_ifs
      · exact Nat.succ_le_succ (ih n)
      · exact Nat.le_refl _

theorem cleanCut_contraction (h : 0 < ptTryContraction s) : CleanCut s (ptTryContraction s) := by
  unfold ptTryContraction at h ⊢
  split at h
  · next c1 c2 rest =>
    split_ifs at h ⊢ with h3 h2
    · exact CleanCut.of_ascii (n := 2) rfl (by rcases h3 with ⟨_, rfl⟩ | ⟨_, rfl⟩ | ⟨_, rfl⟩ <;> decide)
    · exact CleanCut.of_ascii (n := 1) rfl (by rcases h2 with rfl | rfl | rfl | rfl <;> decide)
    · exact absurd h (lt_irrefl 0)
  · next c1 =>
    split_ifs at h ⊢ with h2
    · exact CleanCut.of_ascii (n := 1) rfl (by rcases h2 with rfl | rfl | rfl | rfl <;> decide)
    · exact absurd h (lt_irrefl 0)
  · exact absurd h (lt_irrefl 0)

theorem cleanCut_whitespace (h : ptIsWs b = true) : CleanCut (b :: rest) (ptWhitespace b rest) := by
  have hpos : 1 ≤ ptWs (b :: rest) := takeWhile_pos h
  have hrun : ∀ n, 1 ≤ n → n ≤ ptWs (b :: rest) → CleanCut (b :: rest) n := fun n hn hle =>
    CleanCut.of_run (fun c hc => ascii_of_ws hc) hn hle
  simp only [ptWhitespace]
  cases hnext : (b :: rest)[ptWs (b :: rest)]? with
  | none => exact hrun _ hpos (Nat.le_refl _)
  | some c =>
    have hws : ptIsWs c = false := not_of_run hnext
    -- a single character of white space has `c` right behind it
    have hsingle : ¬ ptWs (b :: rest) > 1 → ∃ rest', rest = c :: rest' := by
      intro hmany
      rw [show ptWs (b :: rest) = 0 + 1 by omega, getElem?_cons_succ, ← head?_eq_getElem?] at hnext
      exact head?_eq_some_iff.mp hnext
    simp only
    split_ifs with hdigit hmany hspace hletter
    · exact hrun _ hpos (Nat.le_refl _)
    · exact hrun _ (by omega) (Nat.sub_le _ _)
    · -- the space goes with the word
      obtain ⟨rest, rfl⟩ := hsingle hmany
      exact (cleanCut_letters (takeWhile_pos hletter)).cons b
    · obtain ⟨rest, rfl⟩ := hsingle hmany
      refine (cleanCut_punct ?_).cons b
      simp only [ptIsPunct, hws, Bool.not_eq_true _ ▸ hdigit, Bool.not_eq_true _ ▸ hletter]
      rfl
    · exact hrun 1 (Nat.le_refl 1) hpos

/-- Every segment is cut off cleanly. -/
theorem cleanCut_ptNext (hs : s ≠ []) : CleanCut s (ptNext s) := by
  cases s with
  | nil => exact absurd rfl hs
  | cons b rest =>
    rw [ptNext]
    split_ifs with hcontraction hletter hdigit hws hhead
    · exact cleanCut_contraction hcontraction
    · exact cleanCut_letters (takeWhile_pos hletter)
    · refine CleanCut.of_run (p := ptIsDigit) (fun c hc => ascii_of_digit hc) ?_ ?_
      · rw [ptDigits, take_succ_cons]
        exact takeWhile_pos hdigit
      · exact length_takeWhile_take ptIsDigit 3 (b :: rest)
    · exact cleanCut_whitespace hws
    · cases rest with
      | nil => cases hhead
      | cons c rest => exact (cleanCut_letters (takeWhile_pos hhead)).cons b
    · refine cleanCut_punct ?_
      simp only [ptIsPunct, Bool.not_eq_true _ ▸ hletter, Bool.not_eq_true _ ▸ hdigit, Bool.not_eq_true _ ▸ hws]
      rfl

/-! ## UTF-8 -/

/-- A continuation byte. -/
def continuation (b : UInt8) : Bool := 0x80 ≤ b && b ≤ 0xBF

/-- The encoding of one character: the table of well-formed sequences of the Unicode standard. -/
def wellFormed : List UInt8 → Bool
  | [b] => b < 0x80
  | [b, c] => 0xC2 ≤ b && b ≤ 0xDF && continuation c
  | [b, c, d] =>
    ((b == 0xE0 && 0xA0 ≤ c && c ≤ 0xBF) || (0xE1 ≤ b && b ≤ 0xEC && continuation c) ||
      (b == 0xED && 0x80 ≤ c && c ≤ 0x9F) || (0xEE ≤ b && b ≤ 0xEF && continuation c)) && continuation d
  | [b, c, d, e] =>
    ((b == 0xF0 && 0x90 ≤ c && c ≤ 0xBF) || (0xF1 ≤ b && b ≤ 0xF3 && continuation c) ||
      (b == 0xF4 && 0x80 ≤ c && c ≤ 0x8F)) && continuation d && continuation e
  | _ => false

/-- A text of well-formed characters. -/
inductive Utf8 : List UInt8 → Prop
  | nil : Utf8 []
  | cons {c s : List UInt8} (hc : wellFormed c = true) (hs : Utf8 s) : Utf8 (c ++ s)

/-- What holds of 256 numbers holds of every byte. -/
theorem forall_byte {P : UInt8 → Prop} (h : ∀ n : Fin 256, P (UInt8.ofNat n)) (b : UInt8) : P b := by
  have hb := h ⟨b.toNat, b.toNat_lt⟩
  rwa [UInt8.ofNat_toNat] at hb

theorem continuation_mask (b : UInt8) : continuation b = true → (b &&& 0xC0 == 0x80) = true :=
  forall_byte (P := fun b => continuation b = true → (b &&& 0xC0 == 0x80) = true) (by decide +kernel) b

theorem not_ascii_of_continuation (h : continuation b = true) : ¬ b < 0x80 := by
  simp only [continuation, Bool.and_eq_true, decide_eq_true_eq] at h
  exact UInt8.not_lt.mpr h.1

/-- Continuation bytes stand behind the lead byte, also in the ranges of the table that are shorter. -/
theorem wellFormed_lead {b c : UInt8} (h : wellFormed (b :: c :: rest) = true) :
    (rest.length + 2 = sequenceLength b ∧ isOverlong (b :: c :: rest) = false ∧ ¬ b < 0x80) ∧
      ∀ x ∈ c :: rest, continuation x = true := by
  rcases rest with _ | ⟨d, _ | ⟨e, _ | ⟨f, rest⟩⟩⟩
  case cons.cons.cons => cases h
  -- two, three or four bytes
  all_goals
    simp [wellFormed, continuation, UInt8.le_iff_toNat_le, ← UInt8.toNat_inj] at h
    simp [sequenceLength, isOverlong, continuation, UInt8.le_iff_toNat_le, UInt8.lt_iff_toNat_lt, ← UInt8.toNat_inj]
    exact ⟨by split_ifs <;> omega, fun x hx => by omega⟩

/-- A character of several bytes: what its lead byte announces, and no ASCII in it. -/
theorem wellFormed_several {c : List UInt8} (hc : wellFormed c = true) : (∃ b, c = [b] ∧ b < 0x80) ∨
    2 ≤ c.length ∧ c.length = sequenceLength (c.headD 0) ∧ isOverlong c = false ∧ (∀ b ∈ c, ¬ b < 0x80) ∧
      ((c.drop 1).all fun b => b &&& 0xC0 == 0x80) = true := by
  rcases c with _ | ⟨b, _ | ⟨c, rest⟩⟩
  · cases hc
  · exact Or.inl ⟨b, rfl, of_decide_eq_true hc⟩
  · obtain ⟨⟨hlen, hover, hb⟩, hcont⟩ := wellFormed_lead hc
    refine Or.inr ⟨Nat.le_add_left 2 _, hlen, hover, ?_, ?_⟩
    · intro x hx
      rcases mem_cons.mp hx with rfl | hx
      · exact hb
      · exact not_ascii_of_continuation (hcont x hx)
    · exact all_eq_true.mpr fun x hx => continuation_mask x (hcont x hx)

/-- A cut beside an ASCII byte is not inside a character. -/
theorem Utf8.split {a b : List UInt8} (h : Utf8 (a ++ b)) (hclean : Clean a b) : Utf8 a ∧ Utf8 b := by
  generalize hs : a ++ b = s at h
  induction h generalizing a with
  | nil =>
    obtain ⟨rfl, rfl⟩ := append_eq_nil_iff.mp hs
    exact ⟨Utf8.nil, Utf8.nil⟩
  | @cons c s hc hs' ih =>
    rcases append_eq_append_iff.mp hs with ⟨d, rfl, rfl⟩ | ⟨d, rfl, rfl⟩
    · -- the cut is in the first character, so that it is at one of its ends
      rcases eq_nil_or_concat a with rfl | ⟨a, x, rfl⟩
      · exact ⟨Utf8.nil, Utf8.cons hc hs'⟩
      cases d with
      | nil => exact ⟨by simpa using Utf8.cons hc Utf8.nil, hs'⟩
      | cons y d =>
        exfalso
        rcases wellFormed_several hc with ⟨z, hz, _⟩ | ⟨_, _, _, hascii, _⟩
        · have hlen := congrArg List.length hz
          simp at hlen
          omega
        · rcases hclean x (by simp) y (by simp) with hx | hy
          · exact hascii x (by simp) hx
          · exact hascii y (by simp) hy
    · have hrest := ih (a := d) (fun x hx y hy => hclean x ?_ y hy) rfl
      · exact ⟨Utf8.cons hc hrest.1, hrest.2⟩
      · rw [getLast?_append, hx]
        rfl

theorem utf8_ascii (h : ∀ b ∈ s, b < 0x80) : Utf8 s := by
  induction s with
  | nil => exact Utf8.nil
  | cons b s ih =>
    refine Utf8.cons (c := [b]) ?_ (ih fun c hc => h c (mem_cons_of_mem _ hc))
    exact decide_eq_true (h b mem_cons_self)

/-! ## The segments of a text -/

theorem drop_ptNext_length {fuel : Nat} (h : (b :: rest).length ≤ fuel + 1) :
    ((b :: rest).drop (ptNext (b :: rest))).length ≤ fuel := by
  have hpos := (cleanCut_ptNext (cons_ne_nil b rest)).1
  rw [length_drop]
  omega

/-- The segments make up the text. -/
theorem segmentsFrom_flatten {fuel : Nat} (hfuel : s.length ≤ fuel) : (segmentsFrom fuel s).flatten = s := by
  fun_induction segmentsFrom fuel s with
  | case1 s => exact (length_eq_zero_iff.mp (Nat.le_zero.mp hfuel)).symm
  | case2 => rfl
  | case3 fuel b rest ih => rw [flatten_cons, ih (drop_ptNext_length hfuel), take_append_drop]

/-- A segment of a text of well-formed characters is one. -/
theorem segmentsFrom_utf8 {fuel : Nat} (h : Utf8 s) : ∀ seg ∈ segmentsFrom fuel s, Utf8 seg := by
  fun_induction segmentsFrom fuel s with
  | case1 s => exact fun seg hseg => absurd hseg not_mem_nil
  | case2 => exact fun seg hseg => absurd hseg not_mem_nil
  | case3 fuel b rest ih =>
    have hcut := cleanCut_ptNext (cons_ne_nil b rest)
    rw [← take_append_drop (ptNext (b :: rest)) (b :: rest)] at h
    obtain ⟨hhead, htail⟩ := h.split hcut.2.2
    intro seg hseg
    rcases mem_cons.mp hseg with rfl | hseg
    · exact hhead
    · exact ih htail seg hseg

end Folkering.Tensor
