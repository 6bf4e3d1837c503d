/-
  FIELDS OF A JSON TEXT (kernel/net/json.rs, libfolk/json.rs): `extract`, `json_get_str` and `json_get_num`.

  None of them parses: they look for the quoted key in the bytes of the text and read what follows.  A slice of the text
  that they return is modelled by its bytes with all that stands behind it, which tells where in the text it is.
    * `extract_iff`    — the string behind the first occurrence of the quoted key;
    * `jsonGetStr_iff` — the first string behind an occurrence of the kernel's pattern;
    * `jsonGetNum_iff` — the digits behind the first occurrence of the pattern, modulo `2 ^ 64`.
  The kernel's pattern is built in a `heapless::String<64>`, of which only `PushLaws` is used.
-/
import Folkering.Tensor.PreTokenizer

namespace Folkering.JsonScan

open Tensor Relation List

/-! ## The scanners -/

/-- What stands behind the first occurrence of a text that is not empty. -/
def findBehind (needle : List UInt8) : List UInt8 → Option (List UInt8)
  | [] => none
  | b :: rest => if needle.isPrefixOf (b :: rest) then some ((b :: rest).drop needle.length) else findBehind needle rest

/-- The characters that `trim_start` removes: the white space of Unicode. -/
def whiteSpaces : List (List UInt8) :=
  [[9], [10], [11], [12], [13], [32], [0xC2, 0x85], [0xC2, 0xA0], [0xE1, 0x9A, 0x80], [0xE2, 0x80, 0x80],
    [0xE2, 0x80, 0x81], [0xE2, 0x80, 0x82], [0xE2, 0x80, 0x83], [0xE2, 0x80, 0x84], [0xE2, 0x80, 0x85],
    [0xE2, 0x80, 0x86], [0xE2, 0x80, 0x87], [0xE2, 0x80, 0x88], [0xE2, 0x80, 0x89], [0xE2, 0x80, 0x8A],
    [0xE2, 0x80, 0xA8], [0xE2, 0x80, 0xA9], [0xE2, 0x80, 0xAF], [0xE2, 0x81, 0x9F], [0xE3, 0x80, 0x80]]

/-- The characters are removed one by one. -/
def trimFrom : Nat → List UInt8 → List UInt8
  | 0, s => s
  | fuel + 1, s =>
    match whiteSpaces.find? fun w => w.isPrefixOf s with
    | some w => trimFrom fuel (s.drop w.length)
    | none => s

/-- `trim_start`. -/
def trimStart (s : List UInt8) : List UInt8 := trimFrom s.length s

/-- The text up to the closing quote, where a backslash takes the next byte with it; and what is behind the quote. -/
def stringBody : List UInt8 → Option (List UInt8 × List UInt8)
  | [] => none
  | 34 :: rest => some ([], rest)
  | [92] => none
  | 92 :: c :: rest => (stringBody rest).map fun r => (92 :: c :: r.1, r.2)
  | b :: rest => (stringBody rest).map fun r => (b :: r.1, r.2)

/-- A colon and a string. -/
def readMember (s : List UInt8) : Option (List UInt8 × List UInt8) :=
  match trimStart s with
  | 58 :: s =>
    match trimStart s with
    | 34 :: content => stringBody content
    | _ => none
  | _ => none

/-- The key between quotes. -/
def quoted (key : List UInt8) : List UInt8 := 34 :: (key ++ [34])

/-- `extract` of libfolk. -/
def extract (json key : List UInt8) : Option (List UInt8 × List UInt8) :=
  if 130 < key.length + 2 then none else (findBehind (quoted key) json).bind readMember

/-- A byte as a character: from 0x80 on it takes two bytes. -/
def byteAsChar (b : UInt8) : List UInt8 := if b < 0x80 then [b] else [(0xC0 : UInt8) ||| (b >>> 6), (0x80 : UInt8) ||| (b &&& 0x3F)]

/-- What is known of `heapless::String<64>::push`, whose result the code drops. -/
structure PushLaws (push : List UInt8 → List UInt8 → List UInt8) : Prop where
  /-- a character that fits into the 64 bytes is added -/
  fits {s c : List UInt8} (h : s.length + c.length ≤ 64) : push s c = s ++ c
  /-- one that does not fit is left out -/
  full {s c : List UInt8} (h : 64 < s.length + c.length) : push s c = s

section

variable (push : List UInt8 → List UInt8 → List UInt8)

/-- `build_key_pattern`. -/
def buildKeyPattern (key : List UInt8) : List UInt8 :=
  push (push ((key.map byteAsChar).foldl push (push [] [34])) [34]) [58]

/-- The white space of `skip_whitespace`. -/
def isWhitespace (b : UInt8) : Bool := b == 32 || b == 9 || b == 10 || b == 13

/-- `skip_whitespace`. -/
def skipWhitespace (s : List UInt8) : List UInt8 := s.dropWhile isWhitespace

/-- `find_char` for the quote, behind the byte `before`. -/
def findQuote (before : UInt8) : List UInt8 → Option (List UInt8 × List UInt8)
  | [] => none
  | b :: rest => if b = 34 ∧ before ≠ 92 then some ([], rest) else (findQuote b rest).map fun r => (b :: r.1, r.2)

/-- `core::str::from_utf8` succeeds. -/
def validUtf8 : Nat → List UInt8 → Bool
  | 0, s => s.isEmpty
  | fuel + 1, s => s.isEmpty || [1, 2, 3, 4].any fun n => wellFormed (s.take n) && validUtf8 fuel (s.drop n)

/-- The loop of `json_get_str`, from some position on. -/
def getStrFrom (pattern : List UInt8) : Nat → List UInt8 → Option (List UInt8 × List UInt8)
  | 0, _ => none
  | fuel + 1, s =>
    if pattern.length < s.length then
      match findBehind pattern s with
      | none => none
      | some after =>
        match skipWhitespace after with
        | [] => none
        | b :: rest =>
          if b = 34 then
            match findQuote 34 rest with
            | some r => if validUtf8 r.1.length r.1 then some r else none
            | none => getStrFrom pattern fuel rest
          else getStrFrom pattern fuel rest
    else none

/-- `json_get_str`. -/
def jsonGetStr (json key : List UInt8) : Option (List UInt8 × List UInt8) :=
  getStrFrom (buildKeyPattern push key) (json.length + 1) json

/-- The loop over the digits, in 64 bits that wrap. -/
def parseDigits (val : Nat) : List UInt8 → Nat
  | [] => val
  | b :: rest => if ptIsDigit b then parseDigits ((val * 10 + (b.toNat - 48)) % 2 ^ 64) rest else val

/-- `json_get_num`. -/
def jsonGetNum (json key : List UInt8) : Option Nat :=
  match findBehind (buildKeyPattern push key) json with
  | none => none
  | some after =>
    match skipWhitespace after with
    | [] => none
    | b :: rest => if ptIsDigit b then some (parseDigits 0 (b :: rest)) else none

end

/-- White space of JSON. -/
def Blank (w : List UInt8) : Prop := ∀ b ∈ w, isWhitespace b = true

/-- One digit or more. -/
def Digits (s : List UInt8) : Prop := s ≠ [] ∧ ∀ b ∈ s, ptIsDigit b = true

/-! ## Finding -/

/-- `post` stands behind the first occurrence. -/
def First (needle s post : List UInt8) : Prop :=
  ∃ front, s = front ++ (needle ++ post) ∧ ∀ front' post', s = front' ++ (needle ++ post') → front.length ≤ front'.length

theorem findBehind_iff {needle : List UInt8} (hne : needle ≠ []) (s post : List UInt8) :
    findBehind needle s = some post ↔ First needle s post := by
  induction s with
  | nil =>
    refine ⟨fun h => (by cases h), ?_⟩
    rintro ⟨front, hs, _⟩
    exact absurd (append_eq_nil_iff.mp (append_eq_nil_iff.mp hs.symm).2).1 hne
  | cons b rest ih =>
    rw [findBehind]
    split_ifs with hhere
    · obtain ⟨tail, htail⟩ := isPrefixOf_iff_prefix.mp hhere
      have hdrop : (b :: rest).drop needle.length = tail := by rw [← htail, drop_left]
      rw [hdrop, Option.some.injEq]
      constructor
      · rintro rfl
        exact ⟨[], htail.symm, fun _ _ _ => Nat.zero_le _⟩
      · rintro ⟨front, hs, hmin⟩
        obtain rfl : front = [] := length_eq_zero_iff.mp (Nat.le_zero.mp (hmin [] tail htail.symm))
        exact append_cancel_left (htail.trans hs)
    · -- an occurrence is not at the start
      have hlater : ∀ front post, b :: rest = front ++ (needle ++ post) → ∃ front', front = b :: front' := by
        intro front post hs
        cases front with
        | nil => exact absurd ( isPrefixOf_iff_prefix.mpr ⟨post, hs.symm⟩) hhere
        | cons c front' =>
          obtain ⟨rfl, _⟩ := List.cons.inj hs
          exact ⟨front', rfl⟩
      rw [ih]
      constructor
      · rintro ⟨front, rfl, hmin⟩
        refine ⟨b :: front, rfl, fun front' post' hs => ?_⟩
        obtain ⟨front'', rfl⟩ := hlater front' post' hs
        exact Nat.succ_le_succ (hmin front'' post' (List.cons.inj hs).2)
      · rintro ⟨front, hs, hmin⟩
        obtain ⟨front', rfl⟩ := hlater front post hs
        refine ⟨front', (List.cons.inj hs).2, fun front'' post' hs' => ?_⟩
        exact Nat.le_of_succ_le_succ (hmin (b :: front'') post' (congrArg (b :: ·) hs'))

theorem findBehind_none {needle : List UInt8} (hne : needle ≠ []) (s : List UInt8) :
    findBehind needle s = none ↔ ¬ needle <:+: s := by
  induction s with
  | nil => exact ⟨fun _ h => hne (infix_nil.mp h), fun _ => rfl⟩
  | cons b rest ih =>
    rw [findBehind, infix_cons_iff, ← isPrefixOf_iff_prefix]
    split_ifs with hhere
    · exact ⟨fun h => (by cases h), fun h => absurd (Or.inl hhere) h⟩
    · rw [ih]
      exact ⟨fun h hor => hor.elim hhere h, fun h hrest => h (Or.inr hrest)⟩

/-! ## White space -/

/-- White space of Unicode. -/
inductive White : List UInt8 → Prop
  | nil : White []
  | cons {w s : List UInt8} (hw : w ∈ whiteSpaces) (hs : White s) : White (w ++ s)

theorem whiteSpaces_bytes : ∀ w ∈ whiteSpaces, w ≠ [] ∧ 58 ∉ w ∧ 34 ∉ w := by decide

theorem White.not_mem {s : List UInt8} (h : White s) : 58 ∉ s ∧ 34 ∉ s := by
  induction h with
  | nil => exact ⟨not_mem_nil, not_mem_nil⟩
  | cons hw _ ih =>
    obtain ⟨_, hcolon, hquote⟩ := whiteSpaces_bytes _ hw
    exact ⟨fun h => (mem_append.mp h).elim hcolon ih.1, fun h => (mem_append.mp h).elim hquote ih.2⟩

theorem white_of_blank {w : List UInt8} (h : Blank w) : White w := by
  induction w with
  | nil => exact White.nil
  | cons b w ih =>
    have hb := h b mem_cons_self
    simp only [isWhitespace, Bool.or_eq_true, beq_iff_eq] at hb
    refine White.cons (w := [b]) ?_ (ih fun c hc => h c (mem_cons_of_mem _ hc))
    rcases hb with ((rfl | rfl) | rfl) | rfl <;> decide

theorem find_whiteSpaces {w : List UInt8} (hw : w ∈ whiteSpaces) (s : List UInt8) :
    (whiteSpaces.find? fun x => x.isPrefixOf (w ++ s)) = some w := by
  fin_cases hw <;> rfl

theorem trimFrom_spec (fuel : Nat) (s : List UInt8) : ∃ u, White u ∧ s = u ++ trimFrom fuel s := by
  induction fuel generalizing s with
  | zero => exact ⟨[], White.nil, rfl⟩
  | succ fuel ih =>
    rw [trimFrom]
    cases hfind : whiteSpaces.find? fun w => w.isPrefixOf s with
    | none => exact ⟨[], White.nil, rfl⟩
    | some w =>
      obtain ⟨tail, rfl⟩ := isPrefixOf_iff_prefix.mp (find?_some (p := fun w => List.isPrefixOf w s) hfind)
      obtain ⟨u, hu, htail⟩ := ih tail
      refine ⟨w ++ u, White.cons (mem_of_find?_eq_some hfind) hu, ?_⟩
      simp only [drop_left, append_assoc]
      rw [← htail]

/-- Up to a colon or a quote all white space is removed. -/
theorem trimStart_white {u : List UInt8} (hu : White u) {c : UInt8} (hc : c = 58 ∨ c = 34) (rest : List UInt8) :
    trimStart (u ++ c :: rest) = c :: rest := by
  have hfrom : ∀ fuel, u.length ≤ fuel → trimFrom fuel (u ++ c :: rest) = c :: rest := by
    induction hu with
    | nil =>
      intro fuel _
      cases fuel with
      | zero => rfl
      | succ fuel =>
        have hnone : (whiteSpaces.find? fun x => x.isPrefixOf (c :: rest)) = none := by
          rcases hc with rfl | rfl <;> rfl
        rw [nil_append, trimFrom, hnone]
    | @cons w s hw _ ih =>
      intro fuel hfuel
      have hpos := length_pos_iff.mpr (whiteSpaces_bytes w hw).1
      rw [length_append] at hfuel
      cases fuel with
      | zero => omega
      | succ fuel =>
        rw [append_assoc, trimFrom, find_whiteSpaces hw]
        simp only [drop_left]
        exact ih fuel (by omega)
  refine hfrom _ ?_
  rw [length_append]
  exact Nat.le_add_right _ _

/-! ## `extract` -/

/-- A text up to a quote: a backslash takes the next byte with it. -/
inductive Closed : List UInt8 → Prop
  | nil : Closed []
  | plain {b : UInt8} {s : List UInt8} (hquote : b ≠ 34) (hback : b ≠ 92) (hs : Closed s) : Closed (b :: s)
  | escaped {c : UInt8} {s : List UInt8} (hs : Closed s) : Closed (92 :: c :: s)

theorem stringBody_iff (s : List UInt8) (r : List UInt8 × List UInt8) :
    stringBody s = some r ↔ Closed r.1 ∧ s = r.1 ++ 34 :: r.2 := by
  obtain ⟨body, behind⟩ := r
  constructor
  · intro h
    fun_induction stringBody s generalizing body with
    | case1 => cases h
    | case2 rest =>
      obtain ⟨rfl, rfl⟩ := Prod.mk.inj (Option.some.inj h)
      exact ⟨Closed.nil, rfl⟩
    | case3 => cases h
    | case4 c rest ih =>
      obtain ⟨⟨body, _⟩, hrest, hr⟩ := Option.map_eq_some_iff.mp h
      obtain ⟨rfl, rfl⟩ := Prod.mk.inj hr
      obtain ⟨hclosed, rfl⟩ := ih body hrest
      exact ⟨Closed.escaped hclosed, rfl⟩
    | case5 b rest hquote hlone hescape ih =>
      obtain ⟨⟨body, _⟩, hrest, hr⟩ := Option.map_eq_some_iff.mp h
      obtain ⟨rfl, rfl⟩ := Prod.mk.inj hr
      obtain ⟨hclosed, hrest⟩ := ih body hrest
      have hback : b ≠ 92 := by
        rintro rfl
        cases rest with
        | nil => exact hlone rfl rfl
        | cons c rest => exact hescape c rest rfl rfl
      exact ⟨Closed.plain hquote hback hclosed, congrArg (b :: ·) hrest⟩
  · rintro ⟨hclosed, rfl⟩
    simp only at hclosed ⊢
    induction hclosed with
    | nil => rfl
    | @plain b s hquote hback _ ih =>
      rw [cons_append, stringBody, ih]
      · rfl
      · exact hquote
      · exact fun h => absurd h hback
      · exact fun c rest h => absurd h hback
    | escaped _ ih =>
      rw [cons_append, cons_append, stringBody, ih]
      rfl

/-- White space, a colon, white space and a string, with `r.2` behind it. -/
def StringBehind (post : List UInt8) (r : List UInt8 × List UInt8) : Prop :=
  ∃ u v, White u ∧ White v ∧ Closed r.1 ∧ post = u ++ 58 :: (v ++ 34 :: (r.1 ++ 34 :: r.2))

theorem readMember_iff (post : List UInt8) (r : List UInt8 × List UInt8) :
    readMember post = some r ↔ StringBehind post r := by
  constructor
  · intro h
    obtain ⟨u, hu, hpost⟩ := trimFrom_spec post.length post
    rw [readMember] at h
    split at h
    · next s hcolon =>
      obtain ⟨v, hv, hs⟩ := trimFrom_spec s.length s
      split at h
      · next content hquote =>
        obtain ⟨hclosed, hcontent⟩ := (stringBody_iff content r).mp h
        refine ⟨u, v, hu, hv, hclosed, ?_⟩
        rw [← hcontent, ← hquote, trimStart, ← hs, ← hcolon]
        exact hpost
      · cases h
    · cases h
  · rintro ⟨u, v, hu, hv, hclosed, rfl⟩
    rw [readMember, trimStart_white hu (Or.inl rfl)]
    simp only
    rw [trimStart_white hv (Or.inr rfl)]
    exact (stringBody_iff _ r).mpr ⟨hclosed, rfl⟩

theorem quoted_ne_nil (key : List UInt8) : quoted key ≠ [] := cons_ne_nil _ _

theorem extract_iff (json key : List UInt8) (r : List UInt8 × List UInt8) :
    extract json key = some r ↔ key.length ≤ 128 ∧ ∃ post, First (quoted key) json post ∧ StringBehind post r := by
  rw [extract]
  split_ifs with hlong
  · refine ⟨fun h => (by cases h), fun h => ?_⟩
    omega
  · rw [Option.bind_eq_some_iff]
    simp only [findBehind_iff (quoted_ne_nil key), readMember_iff]
    exact ⟨fun h => ⟨by omega, h⟩, fun h => h.2⟩

/-! ## `json_get_str` -/

/-- Every quote in it is behind a backslash, and it does not end in one. -/
def Enclosed (before : UInt8) (body : List UInt8) : Prop :=
  (before :: body).IsChain (fun a b => b = 34 → a = 92) ∧ (before :: body).getLast? ≠ some 92

theorem findQuote_iff (before : UInt8) (s : List UInt8) (r : List UInt8 × List UInt8) :
    findQuote before s = some r ↔ Enclosed before r.1 ∧ s = r.1 ++ 34 :: r.2 := by
  obtain ⟨body, behind⟩ := r
  induction s generalizing before body with
  | nil => exact ⟨fun h => (by cases h), fun h => absurd h.2 (by simp)⟩
  | cons b rest ih =>
    rw [findQuote]
    split_ifs with hend
    · obtain ⟨rfl, hbefore⟩ := hend
      constructor
      · intro h
        obtain ⟨rfl, rfl⟩ := Prod.mk.inj (Option.some.inj h)
        exact ⟨⟨isChain_singleton _, by simpa using hbefore⟩, rfl⟩
      · rintro ⟨⟨hchain, _⟩, hs⟩
        cases body with
        | nil => rw [(List.cons.inj hs).2]
        | cons c body =>
          obtain ⟨rfl, _⟩ := List.cons.inj hs
          exact absurd ((isChain_cons_cons.mp hchain).1 rfl) hbefore
    · constructor
      · intro h
        obtain ⟨⟨body, _⟩, hrest, hr⟩ := Option.map_eq_some_iff.mp h
        obtain ⟨rfl, rfl⟩ := Prod.mk.inj hr
        obtain ⟨⟨hchain, hlast⟩, rfl⟩ := (ih b body).mp hrest
        refine ⟨⟨isChain_cons_cons.mpr ⟨fun hb => ?_, hchain⟩, ?_⟩, rfl⟩
        · by_contra hbefore
          exact hend ⟨hb, hbefore⟩
        · rwa [getLast?_cons_cons]
      · rintro ⟨⟨hchain, hlast⟩, hs⟩
        cases body with
        | nil =>
          obtain ⟨rfl, _⟩ := List.cons.inj hs
          exact absurd ⟨rfl, by simpa using hlast⟩ hend
        | cons c body =>
          obtain ⟨rfl, hrest⟩ := List.cons.inj hs
          rw [getLast?_cons_cons] at hlast
          rw [(ih b body).mpr ⟨⟨(isChain_cons_cons.mp hchain).2, hlast⟩, hrest⟩]
          rfl

theorem validUtf8_iff {fuel : Nat} {s : List UInt8} (hfuel : s.length ≤ fuel) : validUtf8 fuel s = true ↔ Utf8 s := by
  constructor
  · intro h
    clear hfuel
    induction fuel generalizing s with
    | zero =>
      rw [List.isEmpty_iff.mp h]
      exact Utf8.nil
    | succ fuel ih =>
      rw [validUtf8, Bool.or_eq_true, any_eq_true] at h
      rcases h with hempty | ⟨n, _, hn⟩
      · rw [List.isEmpty_iff.mp hempty]
        exact Utf8.nil
      · obtain ⟨hhead, htail⟩ := (Bool.and_eq_true _ _).mp hn
        have hcons := Utf8.cons hhead (ih htail)
        rwa [take_append_drop] at hcons
  · intro h
    induction h generalizing fuel with
    | nil => cases fuel <;> rfl
    | @cons c s hc _ ih =>
      have hlen : c.length ∈ [1, 2, 3, 4] := by
        rcases c with _ | ⟨_, _ | ⟨_, _ | ⟨_, _ | ⟨_, _ | ⟨_, c⟩⟩⟩⟩⟩
        all_goals first | cases hc | simp
      rw [length_append] at hfuel
      cases fuel with
      | zero =>
        simp only [mem_cons, not_mem_nil, or_false] at hlen
        omega
      | succ fuel =>
        rw [validUtf8, Bool.or_eq_true, any_eq_true]
        refine Or.inr ⟨c.length, hlen, ?_⟩
        rw [take_left, drop_left, hc, Bool.true_and]
        simp only [mem_cons, not_mem_nil, or_false] at hlen
        exact ih (by omega)

/-- The value `v`, up to the end of the text, follows the first occurrence of the pattern. -/
def ValueAt (pattern s v : List UInt8) : Prop :=
  pattern.length < s.length ∧ ∃ w, First pattern s (w ++ v) ∧ Blank w ∧ ∀ b ∈ v.head?, isWhitespace b = false

/-- A value that is not a string is left behind. -/
def Skips (pattern s rest : List UInt8) : Prop :=
  ∃ b, ValueAt pattern s (b :: rest) ∧ ¬ (b = 34 ∧ ∃ r : List UInt8 × List UInt8, Enclosed 34 r.1 ∧ rest = r.1 ++ 34 :: r.2)

theorem skipWhitespace_iff (s v : List UInt8) :
    skipWhitespace s = v ↔ ∃ w, s = w ++ v ∧ Blank w ∧ ∀ b ∈ v.head?, isWhitespace b = false := by
  constructor
  · rintro rfl
    exact ⟨s.takeWhile isWhitespace, takeWhile_append_dropWhile.symm, fun b hb => mem_takeWhile_imp hb,
      fun b hb => head_dropWhile hb⟩
  · rintro ⟨w, rfl, hw, hv⟩
    rw [skipWhitespace, dropWhile_append_of_pos hw]
    cases v with
    | nil => rfl
    | cons b v => exact dropWhile_cons_of_neg (by simp [hv b rfl])

theorem valueAt_iff {pattern : List UInt8} (hne : pattern ≠ []) (s v : List UInt8) :
    ValueAt pattern s v ↔ pattern.length < s.length ∧ ∃ after, findBehind pattern s = some after ∧ skipWhitespace after = v := by
  refine and_congr_right fun _ => ?_
  simp only [findBehind_iff hne, skipWhitespace_iff]
  constructor
  · rintro ⟨w, hfirst, hw⟩
    exact ⟨w ++ v, hfirst, w, rfl, hw⟩
  · rintro ⟨_, hfirst, w, rfl, hw⟩
    exact ⟨w, hfirst, hw⟩

/-- A string that the loop comes to, behind values that are not strings. -/
def Reads (pattern s : List UInt8) (r : List UInt8 × List UInt8) : Prop :=
  ∃ s', ReflTransGen (Skips pattern) s s' ∧ ValueAt pattern s' (34 :: (r.1 ++ 34 :: r.2)) ∧ Enclosed 34 r.1 ∧ Utf8 r.1

theorem reads_iff (pattern s : List UInt8) (r : List UInt8 × List UInt8) :
    Reads pattern s r ↔ (ValueAt pattern s (34 :: (r.1 ++ 34 :: r.2)) ∧ Enclosed 34 r.1 ∧ Utf8 r.1) ∨
      ∃ rest, Skips pattern s rest ∧ Reads pattern rest r := by
  constructor
  · rintro ⟨s', hsteps, hr⟩
    rcases hsteps.cases_head with rfl | ⟨rest, hskip, hrest⟩
    · exact Or.inl hr
    · exact Or.inr ⟨rest, hskip, s', hrest, hr⟩
  · rintro (hr | ⟨rest, hskip, s', hrest, hr⟩)
    · exact ⟨s, ReflTransGen.refl, hr⟩
    · exact ⟨s', ReflTransGen.head hskip hrest, hr⟩

/-- Without a value that starts with a byte nothing is read. -/
theorem not_reads {pattern s : List UInt8} (hno : ∀ b rest, ¬ ValueAt pattern s (b :: rest)) (r : List UInt8 × List UInt8) :
    ¬ Reads pattern s r := by
  intro hreads
  rcases (reads_iff pattern s r).mp hreads with hr | ⟨rest, ⟨b, hb, _⟩, _⟩
  · exact hno _ _ hr.1
  · exact hno b rest hb

section Value

variable {pattern s rest : List UInt8} {b : UInt8} (hvalue : ∀ v, ValueAt pattern s v ↔ b :: rest = v)
include hvalue

/-- A value that is no string: the loop goes on behind its first byte. -/
theorem reads_next (hno : ¬ (b = 34 ∧ ∃ r : List UInt8 × List UInt8, Enclosed 34 r.1 ∧ rest = r.1 ++ 34 :: r.2))
    (r : List UInt8 × List UInt8) : Reads pattern s r ↔ Reads pattern rest r := by
  rw [reads_iff]
  constructor
  · rintro (⟨hr, henclosed, _⟩ | ⟨rest', ⟨b', hb', _⟩, h⟩)
    · obtain ⟨rfl, rfl⟩ := List.cons.inj ((hvalue _).mp hr)
      exact absurd ⟨rfl, r, henclosed, rfl⟩ hno
    · obtain ⟨rfl, rfl⟩ := List.cons.inj ((hvalue _).mp hb')
      exact h
  · exact fun h => Or.inr ⟨rest, ⟨b, (hvalue _).mpr rfl, hno⟩, h⟩

/-- A string: it is what the loop returns, if it is well formed. -/
theorem reads_string (hquote : b = 34) {r' : List UInt8 × List UInt8} (hend : findQuote 34 rest = some r')
    (r : List UInt8 × List UInt8) : Reads pattern s r ↔ r' = r ∧ Utf8 r.1 := by
  obtain ⟨henclosed, hsplit⟩ := (findQuote_iff 34 rest r').mp hend
  rw [reads_iff]
  constructor
  · rintro (⟨hr, henclosed', hutf8⟩ | ⟨rest', ⟨b', hb', hno⟩, _⟩)
    · have hrest := (List.cons.inj ((hvalue _).mp hr)).2
      exact ⟨Option.some.inj (hend.symm.trans ((findQuote_iff 34 rest r).mpr ⟨henclosed', hrest⟩)), hutf8⟩
    · obtain ⟨rfl, rfl⟩ := List.cons.inj ((hvalue _).mp hb')
      exact absurd ⟨hquote, r', henclosed, hsplit⟩ hno
  · rintro ⟨rfl, hutf8⟩
    exact Or.inl ⟨(hvalue _).mpr (by rw [hsplit, hquote]), henclosed, hutf8⟩

end Value

theorem getStrFrom_iff {pattern : List UInt8} (hne : pattern ≠ []) {fuel : Nat} {s : List UInt8} (hfuel : s.length < fuel)
    (r : List UInt8 × List UInt8) : getStrFrom pattern fuel s = some r ↔ Reads pattern s r := by
  induction fuel generalizing s with
  | zero => cases hfuel
  | succ fuel ih =>
    have hnothing : (∀ b rest, ¬ ValueAt pattern s (b :: rest)) → (none = some r ↔ Reads pattern s r) := fun hno =>
      ⟨fun h => (by cases h), fun h => absurd h (not_reads hno r)⟩
    rw [getStrFrom]
    by_cases hlen : pattern.length < s.length
    · rw [if_pos hlen]
      cases hfind : findBehind pattern s with
      | none =>
        refine hnothing fun b rest hv => ?_
        obtain ⟨_, after, hafter, _⟩ := (valueAt_iff hne s _).mp hv
        cases hfind.symm.trans hafter
      | some after =>
        have hvalue : ∀ v, ValueAt pattern s v ↔ skipWhitespace after = v := by
          intro v
          rw [valueAt_iff hne, hfind]
          simp [hlen]
        simp only
        cases hskip : skipWhitespace after with
        | nil => exact hnothing fun b rest hv => (by cases hskip.symm.trans ((hvalue _).mp hv))
        | cons b rest =>
          rw [hskip] at hvalue
          have hrest : rest.length < fuel := by
            obtain ⟨_, w, ⟨front, hs, _⟩, _⟩ := (hvalue (b :: rest)).mpr rfl
            have hlength := congrArg List.length hs
            simp only [length_append, length_cons] at hlength
            omega
          simp only
          split_ifs with hquote
          · cases hend : findQuote 34 rest with
            | none =>
              rw [reads_next hvalue ?_, ih hrest]
              rintro ⟨_, r', hr'⟩
              cases hend.symm.trans ((findQuote_iff 34 rest r').mpr hr')
            | some r' =>
              simp only
              rw [reads_string hvalue hquote hend]
              split_ifs with hvalid
              · have hutf8 := (validUtf8_iff (Nat.le_refl _)).mp hvalid
                rw [Option.some.injEq]
                exact ⟨fun h => ⟨h, h ▸ hutf8⟩, fun h => h.1⟩
              · refine ⟨fun h => (by cases h), ?_⟩
                rintro ⟨rfl, hutf8⟩
                exact absurd ((validUtf8_iff (Nat.le_refl _)).mpr hutf8) hvalid
          · rw [reads_next hvalue (fun h => hquote h.1), ih hrest]
    · rw [if_neg hlen]
      exact hnothing fun b rest hv => hlen hv.1

section

variable {push : List UInt8 → List UInt8 → List UInt8} (hpush : PushLaws push)

include hpush

theorem push_ne_nil {s : List UInt8} (h : s ≠ []) (c : List UInt8) : push s c ≠ [] := by
  by_cases hlen : s.length + c.length ≤ 64
  · rw [hpush.fits hlen]
    exact append_ne_nil_of_left_ne_nil h c
  · rwa [hpush.full (by omega)]

/-- The pattern has at least its first quote. -/
theorem buildKeyPattern_ne_nil (key : List UInt8) : buildKeyPattern push key ≠ [] := by
  have hfold : ∀ (cs : List (List UInt8)) (s : List UInt8), s ≠ [] → cs.foldl push s ≠ [] := by
    intro cs
    induction cs with
    | nil => exact fun s h => h
    | cons c cs ih => exact fun s h => ih _ (push_ne_nil hpush h c)
  have hquote : push [] [34] ≠ [] := by
    rw [hpush.fits (by decide)]
    exact cons_ne_nil _ _
  exact push_ne_nil hpush (push_ne_nil hpush (hfold _ _ hquote) _) _

theorem jsonGetStr_iff (json key : List UInt8) (r : List UInt8 × List UInt8) :
    jsonGetStr push json key = some r ↔ Reads (buildKeyPattern push key) json r :=
  getStrFrom_iff (buildKeyPattern_ne_nil hpush key) (Nat.lt_succ_self _) r

end

/-! ## `json_get_num` -/

/-- The value of digits behind others of the value `val`. -/
def decimal (val : Nat) (ds : List UInt8) : Nat := ds.foldl (fun v b => v * 10 + (b.toNat - 48)) val

/-- Only the value modulo `2 ^ 64` of the digits in front counts. -/
theorem decimal_mod (val : Nat) (ds : List UInt8) : decimal (val % 2 ^ 64) ds % 2 ^ 64 = decimal val ds % 2 ^ 64 := by
  induction ds generalizing val with
  | nil => exact Nat.mod_mod _ _
  | cons b ds ih =>
    have hnext : (val % 2 ^ 64 * 10 + (b.toNat - 48)) % 2 ^ 64 = (val * 10 + (b.toNat - 48)) % 2 ^ 64 := by omega
    show decimal (val % 2 ^ 64 * 10 + (b.toNat - 48)) ds % 2 ^ 64 = decimal (val * 10 + (b.toNat - 48)) ds % 2 ^ 64
    rw [← ih, hnext, ih]

/-- The loop gives the value of the digits modulo `2 ^ 64`. -/
theorem parseDigits_eq {val : Nat} (hval : val < 2 ^ 64) (s : List UInt8) :
    parseDigits val s = decimal val (s.takeWhile ptIsDigit) % 2 ^ 64 := by
  induction s generalizing val with
  | nil => exact (Nat.mod_eq_of_lt hval).symm
  | cons b rest ih =>
    rw [parseDigits, takeWhile_cons]
    split_ifs with hdigit
    · rw [ih (Nat.mod_lt _ (Nat.two_pow_pos 64)), decimal_mod]
      rfl
    · exact (Nat.mod_eq_of_lt hval).symm

/-- White space and digits, of the value `n` modulo `2 ^ 64`. -/
def NumberBehind (post : List UInt8) (n : Nat) : Prop :=
  ∃ w ds rest, post = w ++ (ds ++ rest) ∧ Blank w ∧ Digits ds ∧ (∀ b ∈ rest.head?, ptIsDigit b = false) ∧
    decimal 0 ds % 2 ^ 64 = n

theorem takeWhile_digits {ds rest : List UInt8} (hds : Digits ds) (hrest : ∀ b ∈ rest.head?, ptIsDigit b = false) :
    (ds ++ rest).takeWhile ptIsDigit = ds := by
  rw [takeWhile_append_of_pos hds.2]
  cases rest with
  | nil => exact append_nil ds
  | cons b rest => rw [takeWhile_cons_of_neg (by simp [hrest b rfl]), append_nil]

theorem digit_not_white (b : UInt8) : ptIsDigit b = true → isWhitespace b = false :=
  forall_byte (P := fun b => ptIsDigit b = true → isWhitespace b = false) (by decide +kernel) b

/-- The digits that are read stand behind the white space. -/
theorem numberBehind_iff (post : List UInt8) (n : Nat) : NumberBehind post n ↔ ∃ b rest, skipWhitespace post = b :: rest ∧
    ptIsDigit b = true ∧ parseDigits 0 (b :: rest) = n := by
  simp only [skipWhitespace_iff, parseDigits_eq (Nat.two_pow_pos 64)]
  constructor
  · rintro ⟨w, ds, rest, rfl, hw, hds, hrest, hvalue⟩
    have htake := takeWhile_digits hds hrest
    cases ds with
    | nil => exact absurd rfl hds.1
    | cons b ds =>
      have hb := hds.2 b mem_cons_self
      refine ⟨b, ds ++ rest, ⟨w, rfl, hw, fun c hc => ?_⟩, hb, ?_⟩
      · obtain rfl := Option.some.inj hc
        exact digit_not_white _ hb
      · rw [← cons_append, htake, hvalue]
  · rintro ⟨b, rest, ⟨w, rfl, hw, _⟩, hb, hvalue⟩
    refine ⟨w, (b :: rest).takeWhile ptIsDigit, (b :: rest).dropWhile ptIsDigit, ?_, hw, ⟨?_, ?_⟩, ?_, hvalue⟩
    · rw [takeWhile_append_dropWhile]
    · rw [takeWhile_cons_of_pos hb]
      exact cons_ne_nil _ _
    · exact fun c hc => mem_takeWhile_imp hc
    · exact fun c hc => head_dropWhile hc

theorem jsonGetNum_iff {push : List UInt8 → List UInt8 → List UInt8} (hpush : PushLaws push) (json key : List UInt8) (n : Nat) :
    jsonGetNum push json key = some n ↔ ∃ post, First (buildKeyPattern push key) json post ∧ NumberBehind post n := by
  simp only [← findBehind_iff (buildKeyPattern_ne_nil hpush key), numberBehind_iff, jsonGetNum]
  cases findBehind (buildKeyPattern push key) json with
  | none => simp
  | some after =>
    simp only [Option.some.injEq, exists_eq_left']
    cases hskip : skipWhitespace after with
    | nil => simp
    | cons b rest =>
      simp only
      split_ifs with hb
      · rw [Option.some.injEq]
        constructor
        · exact fun h => ⟨b, rest, rfl, hb, h⟩
        · rintro ⟨b', rest', heq, _, hvalue⟩
          rwa [heq]
      · refine ⟨fun h => (by cases h), ?_⟩
        rintro ⟨b', rest', heq, hb', _⟩
        obtain ⟨rfl, rfl⟩ := List.cons.inj heq
        exact absurd hb' hb

end Folkering.JsonScan
