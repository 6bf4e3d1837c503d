/-
  JSON and the FIELDS of an object's text (kernel/net/json.rs, libfolk/json.rs).

  The grammar of JSON, with the white space of the text, says which top-level members an object has and where their values
  stand.  The scanners look for the quoted key anywhere in the text.
    * `stringBehind_member` — what is read behind the key is the value of a member iff the key ends with the member's name;
    * `fields_agree_iff`    — when the scanners give the value of a top-level member with the key.
  A nested member with the key, a string that is the key, or an escaped quote in front of it stops them too early, and the
  kernel takes a quote behind an escaped backslash for an escaped one: `nested_member_found`.
-/
import Folkering.Net.JsonScan

namespace Folkering.JsonScan

open Tensor Relation List

/-! ## JSON -/

/-- The inside of a string as it is written. -/
inductive RawBody : List UInt8 → Prop
  | nil : RawBody []
  | plain {b : UInt8} {s : List UInt8} (hquote : b ≠ 34) (hback : b ≠ 92) (hcontrol : 0x20 ≤ b) (hs : RawBody s) : RawBody (b :: s)
  | escape {c : UInt8} {s : List UInt8} (hc : c ∈ [34, 92, 47, 98, 102, 110, 114, 116]) (hs : RawBody s) : RawBody (92 :: c :: s)
  | unicode {hex s : List UInt8} (hlen : hex.length = 4)
      (hhex : ∀ c ∈ hex, ptIsDigit c = true ∨ (97 ≤ c ∧ c ≤ 102) ∨ (65 ≤ c ∧ c ≤ 70)) (hs : RawBody s) : RawBody (92 :: 117 :: (hex ++ s))

/-- An unsigned integer. -/
def Unsigned (s : List UInt8) : Prop := Digits s ∧ (s.head? = some 48 → s = [48])

/-- A number of the grammar. -/
def Number (s : List UInt8) : Prop :=
  ∃ sign int frac exp, s = sign ++ (int ++ (frac ++ exp)) ∧ sign ∈ [[], [45]] ∧ Unsigned int ∧
    (frac = [] ∨ ∃ ds, frac = 46 :: ds ∧ Digits ds) ∧
    (exp = [] ∨ ∃ e sign ds, exp = e :: (sign ++ ds) ∧ e ∈ [69, 101] ∧ sign ∈ [[], [43], [45]] ∧ Digits ds)

/-- `true`, `false`, `null` -/
def literals : List (List UInt8) := [[116, 114, 117, 101], [102, 97, 108, 115, 101], [110, 117, 108, 108]]

/-- A member of an object with the white space in it. -/
structure Member where
  lead : List UInt8
  name : List UInt8
  beforeColon : List UInt8
  afterColon : List UInt8
  value : List UInt8
  trail : List UInt8

/-- What stands behind the name, up to the end of the value. -/
def Member.behindName (m : Member) : List UInt8 := m.beforeColon ++ 58 :: (m.afterColon ++ m.value)

/-- A member with its white space. -/
def Member.text (m : Member) : List UInt8 := m.lead ++ (quoted m.name ++ (m.behindName ++ m.trail))

/-- The layout of a member, the value apart. -/
structure Member.Layout (m : Member) : Prop where
  lead : Blank m.lead
  name : RawBody m.name
  beforeColon : Blank m.beforeColon
  afterColon : Blank m.afterColon
  trail : Blank m.trail

/-- Joined by commas. -/
def joined : List (List UInt8) → List UInt8
  | [] => []
  | [s] => s
  | s :: rest => s ++ 44 :: joined rest

/-- The texts of the values of JSON. -/
inductive Value : List UInt8 → Prop
  | string {body : List UInt8} (h : RawBody body) : Value (quoted body)
  | number {s : List UInt8} (h : Number s) : Value s
  | literal {s : List UInt8} (h : s ∈ literals) : Value s
  | emptyArray {w : List UInt8} (h : Blank w) : Value (91 :: (w ++ [93]))
  | array {items : List (List UInt8 × List UInt8 × List UInt8)} (hne : items ≠ [])
      (hblank : ∀ i ∈ items, Blank i.1 ∧ Blank i.2.2) (h : ∀ i ∈ items, Value i.2.1) :
      Value (91 :: (joined (items.map fun i => i.1 ++ (i.2.1 ++ i.2.2)) ++ [93]))
  | emptyObject {w : List UInt8} (h : Blank w) : Value (123 :: (w ++ [125]))
  | object {ms : List Member} (hne : ms ≠ []) (hlayout : ∀ m ∈ ms, m.Layout) (h : ∀ m ∈ ms, Value m.value) :
      Value (123 :: (joined (ms.map Member.text) ++ [125]))

/-- The text of an object with these members; `back` starts with its closing brace. -/
structure ObjectText (text : List UInt8) (ms : List Member) (back : List UInt8) : Prop where
  utf8 : Utf8 text
  text : ∃ front inner trail, Blank front ∧ Blank trail ∧ back = 125 :: trail ∧ text = front ++ 123 :: (inner ++ back) ∧
    (ms = [] ∧ Blank inner ∨ ms ≠ [] ∧ inner = joined (ms.map Member.text))
  layout : ∀ m ∈ ms, m.Layout
  values : ∀ m ∈ ms, Value m.value

/-- The members with what stands behind the value of each. -/
def placed (back : List UInt8) : List Member → List (Member × List UInt8)
  | [] => []
  | [m] => [(m, m.trail ++ back)]
  | m :: ms => (m, m.trail ++ 44 :: (joined (ms.map Member.text) ++ back)) :: placed back ms

/-! ## Members -/

theorem joined_cons {s : List UInt8} {rest : List (List UInt8)} (h : rest ≠ []) : joined (s :: rest) = s ++ 44 :: joined rest := by
  cases rest with
  | nil => exact absurd rfl h
  | cons t rest => rfl

variable {ms : List Member}

theorem placed_spec {back : List UInt8} {p : Member × List UInt8} (h : p ∈ placed back ms) :
    p.1 ∈ ms ∧ ∃ front, joined (ms.map Member.text) ++ back = front ++ (quoted p.1.name ++ (p.1.behindName ++ p.2)) := by
  fun_induction placed back ms with
  | case1 => cases h
  | case2 m =>
    obtain rfl := mem_singleton.mp h
    exact ⟨mem_cons_self, m.lead, by simp [joined, Member.text]⟩
  | case3 m ms hne ih =>
    have hmap : ms.map Member.text ≠ [] := fun h => hne (map_eq_nil_iff.mp h)
    rw [map_cons, joined_cons hmap]
    rcases mem_cons.mp h with rfl | h
    · exact ⟨mem_cons_self, m.lead, by simp [Member.text]⟩
    · obtain ⟨hmem, front, hfront⟩ := ih h
      refine ⟨mem_cons_of_mem _ hmem, m.text ++ 44 :: front, ?_⟩
      rw [append_assoc, cons_append, hfront, append_assoc, cons_append]

variable {text back : List UInt8}

theorem ObjectText.placed (h : ObjectText text ms back) {p : Member × List UInt8} (hp : p ∈ placed back ms) :
    p.1.Layout ∧ ∃ front, text = front ++ (quoted p.1.name ++ (p.1.behindName ++ p.2)) := by
  obtain ⟨hmem, front, hfront⟩ := placed_spec hp
  obtain ⟨lead, inner, _, _, _, _, htext, hinner⟩ := h.text
  refine ⟨h.layout _ hmem, lead ++ 123 :: front, ?_⟩
  rcases hinner with ⟨rfl, _⟩ | ⟨_, rfl⟩
  · cases hmem
  · rw [htext, hfront, append_assoc, cons_append]

theorem RawBody.closed {body : List UInt8} (h : RawBody body) : Closed body := by
  induction h with
  | nil => exact Closed.nil
  | plain hquote hback _ _ ih => exact Closed.plain hquote hback ih
  | escape _ _ ih => exact Closed.escaped ih
  | @unicode hex s _ hhex _ ih =>
    refine Closed.escaped ?_
    have hplain : ∀ c : UInt8, (ptIsDigit c = true ∨ (97 ≤ c ∧ c ≤ 102) ∨ (65 ≤ c ∧ c ≤ 70)) → c ≠ 34 ∧ c ≠ 92 :=
      forall_byte (by decide +kernel)
    clear * - hhex ih hplain
    induction hex with
    | nil => exact ih
    | cons c hex ihex =>
      obtain ⟨hquote, hback⟩ := hplain c (hhex c mem_cons_self)
      exact Closed.plain hquote hback (ihex fun d hd => hhex d (mem_cons_of_mem _ hd))

/-- The last occurrence of a byte is at one place. -/
theorem last_unique {c : UInt8} {a b u v : List UInt8} (h : a ++ c :: u = b ++ c :: v) (hu : c ∉ u) (hv : c ∉ v) :
    a = b ∧ u = v := by
  rcases append_eq_append_iff.mp h with ⟨d, rfl, hd⟩ | ⟨d, rfl, hd⟩
  · cases d with
    | nil => exact ⟨(append_nil a).symm, (List.cons.inj hd).2⟩
    | cons x d => exact absurd ((List.cons.inj hd).2 ▸ mem_append_right d mem_cons_self) hu
  · cases d with
    | nil => exact ⟨append_nil b, (List.cons.inj hd).2.symm⟩
    | cons x d => exact absurd ((List.cons.inj hd).2 ▸ mem_append_right d mem_cons_self) hv

section Agreement

/- The name that is written in some way: the same bytes, or these with their escapes decoded. -/
variable (read : List UInt8 → List UInt8)

/-- The member has the key and a string for its value, with this body. -/
def StringMember (key : List UInt8) (m : Member) (body : List UInt8) : Prop :=
  read m.name = key ∧ m.value = quoted body ∧ RawBody body

/-- The slice is the body of a top-level string member with the key. -/
def IsBody (back : List UInt8) (ms : List Member) (key : List UInt8) (r : List UInt8 × List UInt8) : Prop :=
  ∃ m, (m, r.2) ∈ placed back ms ∧ StringMember read key m r.1

/-- What JSON says: the body of such a member, or nothing if there is none. -/
def Agrees (back : List UInt8) (ms : List Member) (key : List UInt8) (result : Option (List UInt8 × List UInt8)) : Prop :=
  (∃ r, result = some r ∧ IsBody read back ms key r) ∨ (result = none ∧ ∀ r, ¬ IsBody read back ms key r)

/-- The string behind the first occurrence is the value of a member iff the occurrence ends with the name of the member. -/
theorem stringBehind_member (h : ObjectText text ms back) {key : List UInt8}
    {m : Member} {r : List UInt8 × List UInt8} (hm : (m, r.2) ∈ placed back ms) (hstring : StringMember read key m r.1)
    {front post : List UInt8} (hpost : text = front ++ (quoted key ++ post)) :
    StringBehind post r ↔ post = m.behindName ++ r.2 := by
  obtain ⟨hlayout, front', htext⟩ := h.placed hm
  obtain ⟨_, hvalue, hraw⟩ := hstring
  constructor
  · rintro ⟨u, v, hu, hv, _, rfl⟩
    -- before the string there are the colon and, in front of it, the quote
    have hboth : (front ++ 34 :: key) ++ 34 :: (u ++ 58 :: (v ++ 34 :: (r.1 ++ 34 :: r.2))) =
        (front' ++ 34 :: m.name) ++ 34 :: (m.beforeColon ++ 58 :: (m.afterColon ++ 34 :: (r.1 ++ 34 :: r.2))) := by
      have heq := hpost.symm.trans htext
      simpa [quoted, Member.behindName, hvalue] using heq
    have hcut : (front ++ 34 :: key ++ 34 :: u) ++ 58 :: v = (front' ++ 34 :: m.name ++ 34 :: m.beforeColon) ++ 58 :: m.afterColon := by
      refine (append_left_inj (34 :: (r.1 ++ 34 :: r.2))).mp ?_
      simpa using hboth
    obtain ⟨hfront, rfl⟩ := last_unique hcut hv.not_mem.1 (white_of_blank hlayout.afterColon).not_mem.1
    obtain ⟨_, rfl⟩ := last_unique hfront hu.not_mem.2 (white_of_blank hlayout.beforeColon).not_mem.2
    simp [Member.behindName, hvalue, quoted]
  · rintro rfl
    refine ⟨m.beforeColon, m.afterColon, white_of_blank hlayout.beforeColon, white_of_blank hlayout.afterColon, hraw.closed, ?_⟩
    simp [Member.behindName, hvalue, quoted]

/-- The first occurrence of the quoted key ends with the name of a top-level string member that has the key, or there is no such
member and the key is too long, not in the text, or not followed by a colon and a string. -/
def FirstIsName (text back : List UInt8) (ms : List Member) (key : List UInt8) : Prop :=
  (key.length ≤ 128 ∧ ∃ m body behind, (m, behind) ∈ placed back ms ∧ StringMember read key m body ∧
    First (quoted key) text (m.behindName ++ behind)) ∨
  (∀ r, ¬ IsBody read back ms key r) ∧ (128 < key.length ∨ ¬ quoted key <:+: text ∨
    ∃ post, First (quoted key) text post ∧ ∀ r, ¬ StringBehind post r)

theorem extract_agrees_iff (h : ObjectText text ms back) (key : List UInt8) :
    Agrees read back ms key (extract text key) ↔ FirstIsName read text back ms key := by
  refine or_congr ?_ ?_
  · constructor
    · rintro ⟨r, hr, m, hm, hstring⟩
      obtain ⟨hlen, post, hfirst, hbehind⟩ := (extract_iff text key r).mp hr
      obtain ⟨front, hpost, _⟩ := id hfirst
      rw [(stringBehind_member read h hm hstring hpost).mp hbehind] at hfirst
      exact ⟨hlen, m, r.1, r.2, hm, hstring, hfirst⟩
    · rintro ⟨hlen, m, body, behind, hm, hstring, hfirst⟩
      obtain ⟨front, hpost, _⟩ := id hfirst
      refine ⟨(body, behind), (extract_iff text key _).mpr ⟨hlen, _, hfirst, ?_⟩, m, hm, hstring⟩
      exact (stringBehind_member (r := (body, behind)) read h hm hstring hpost).mpr rfl
  · rw [and_comm]
    refine and_congr_right fun _ => ?_
    rw [← findBehind_none (quoted_ne_nil key)]
    constructor
    · intro hnone
      by_cases hlen : 128 < key.length
      · exact Or.inl hlen
      · cases hfind : findBehind (quoted key) text with
        | none => exact Or.inr (Or.inl rfl)
        | some post =>
          have hfirst := (findBehind_iff (quoted_ne_nil key) text post).mp hfind
          refine Or.inr (Or.inr ⟨post, hfirst, fun r hr => ?_⟩)
          rw [(extract_iff text key r).mpr ⟨by omega, post, hfirst, hr⟩] at hnone
          cases hnone
    · intro hcases
      refine Option.eq_none_iff_forall_ne_some.mpr fun r hr => ?_
      obtain ⟨hlen, post, hfirst, hbehind⟩ := (extract_iff text key r).mp hr
      have hfind := (findBehind_iff (quoted_ne_nil key) text post).mpr hfirst
      rcases hcases with hlong | hnone | ⟨post', hfirst', hno⟩
      · omega
      · cases hnone.symm.trans hfind
      · obtain rfl := Option.some.inj (((findBehind_iff (quoted_ne_nil key) text post').mpr hfirst').symm.trans hfind)
        exact hno r hbehind

theorem Closed.chain {body : List UInt8} (h : Closed body) (before : UInt8) :
    (before :: body).IsChain fun a b => b = 34 → a = 92 := by
  induction h generalizing before with
  | nil => exact isChain_singleton _
  | plain hquote _ _ ih => exact isChain_cons_cons.mpr ⟨fun h => absurd h hquote, ih _⟩
  | escaped _ ih => exact isChain_cons_cons.mpr ⟨fun h => absurd h (by decide), isChain_cons_cons.mpr ⟨fun _ => rfl, ih _⟩⟩

/-- A slice between quotes is well formed. -/
theorem utf8_between {front body behind : List UInt8} (h : Utf8 (front ++ 34 :: (body ++ 34 :: behind))) : Utf8 body := by
  have hafter : Utf8 (body ++ 34 :: behind) := by
    rw [← singleton_append, ← append_assoc] at h
    exact (h.split fun x hx y _ => Or.inl (by simp at hx; rw [← hx]; decide)).2
  exact (hafter.split fun x _ y hy => Or.inr (by simp at hy; rw [← hy]; decide)).1

/-- The first string behind the pattern, other values being skipped, is the value of a top-level member with the key and does not
end in a backslash, or there is no such member and no string behind the pattern. -/
def FirstStringIsValue (pattern text back : List UInt8) (ms : List Member) (key : List UInt8) : Prop :=
  (∃ m body behind s, (m, behind) ∈ placed back ms ∧ StringMember read key m body ∧ body.getLast? ≠ some 92 ∧
    ReflTransGen (Skips pattern) text s ∧ ValueAt pattern s (m.value ++ behind)) ∨
  (∀ r, ¬ IsBody read back ms key r) ∧ ∀ r, ¬ Reads pattern text r

variable {push : List UInt8 → List UInt8 → List UInt8} (hpush : PushLaws push)

include hpush

theorem jsonGetStr_agrees_iff (h : ObjectText text ms back) (key : List UInt8) :
    Agrees read back ms key (jsonGetStr push text key) ↔
      FirstStringIsValue read (buildKeyPattern push key) text back ms key := by
  have hlast : ∀ body : List UInt8, (34 :: body).getLast? ≠ some 92 ↔ body.getLast? ≠ some 92 := by
    intro body
    cases body with
    | nil => simp
    | cons b body => rw [getLast?_cons_cons]
  refine or_congr ?_ ?_
  · constructor
    · rintro ⟨r, hr, m, hm, hstring⟩
      obtain ⟨s, hsteps, hvalue, henclosed, _⟩ := (jsonGetStr_iff hpush text key r).mp hr
      refine ⟨m, r.1, r.2, s, hm, hstring, (hlast _).mp henclosed.2, hsteps, ?_⟩
      rw [hstring.2.1]
      simpa [quoted] using hvalue
    · rintro ⟨m, body, behind, s, hm, hstring, hend, hsteps, hvalue⟩
      obtain ⟨_, front, htext⟩ := h.placed hm
      rw [Member.behindName, hstring.2.1] at htext
      refine ⟨(body, behind), (jsonGetStr_iff hpush text key _).mpr ⟨s, hsteps, ?_, ⟨hstring.2.2.closed.chain 34, (hlast _).mpr hend⟩, ?_⟩, m, hm, hstring⟩
      · rw [hstring.2.1] at hvalue
        simpa [quoted] using hvalue
      · have hutf8 := h.utf8
        rw [htext, quoted, quoted] at hutf8
        exact @utf8_between (front ++ (34 :: (m.name ++ [34]) ++ (m.beforeColon ++ 58 :: m.afterColon))) body behind
          (by simpa using hutf8)
  · rw [and_comm, Option.eq_none_iff_forall_ne_some]
    simp only [ne_eq, jsonGetStr_iff hpush]

omit hpush

/-- The first occurrence of the pattern stands in front of the member's value, or in another place, and a number of the same value
modulo `2 ^ 64` happens to follow it there. -/
def FirstIsNumber (pattern text behind : List UInt8) (m : Member) : Prop :=
  First pattern text (m.afterColon ++ (m.value ++ behind)) ∨
  ∃ post, First pattern text post ∧ post ≠ m.afterColon ++ (m.value ++ behind) ∧ NumberBehind post (decimal 0 m.value)

/-- Behind a value and its white space there is a comma or the closing brace. -/
theorem placed_behind {trail : List UInt8} {p : Member × List UInt8} (hp : p ∈ placed (125 :: trail) ms) :
    ∃ c rest, (c = 44 ∨ c = 125) ∧ p.2 = p.1.trail ++ c :: rest := by
  fun_induction placed (125 :: trail) ms with
  | case1 => cases hp
  | case2 m =>
    obtain rfl := mem_singleton.mp hp
    exact ⟨125, trail, Or.inr rfl, rfl⟩
  | case3 m ms hne ih =>
    rcases mem_cons.mp hp with rfl | hp
    · exact ⟨44, _, Or.inl rfl, rfl⟩
    · exact ih hp

/-- So no digit follows it. -/
theorem ObjectText.behind (h : ObjectText text ms back) {p : Member × List UInt8}
    (hp : p ∈ JsonScan.placed back ms) : ∀ b ∈ p.2.head?, ptIsDigit b = false := by
  obtain ⟨_, _, trail, _, _, rfl, _⟩ := h.text
  obtain ⟨c, rest, hc, hbehind⟩ := placed_behind hp
  have hblank := (h.placed hp).1.trail
  rw [hbehind]
  cases htrail : p.1.trail with
  | nil =>
    rintro b hb
    obtain rfl := Option.some.inj hb
    rcases hc with rfl | rfl <;> decide
  | cons d w =>
    rintro b hb
    obtain rfl := Option.some.inj hb
    have hwhite : isWhitespace d = true := hblank d (htrail ▸ mem_cons_self)
    by_contra hdigit
    rw [digit_not_white d (Bool.not_eq_false _ ▸ hdigit)] at hwhite
    cases hwhite

include hpush in
theorem jsonGetNum_agrees_iff {text back behind : List UInt8} (h : ObjectText text ms back)
    (key : List UInt8) {m : Member} (hm : (m, behind) ∈ placed back ms) (hnumber : Unsigned m.value)
    (hfits : decimal 0 m.value < 2 ^ 64) :
    jsonGetNum push text key = some (decimal 0 m.value) ↔ FirstIsNumber (buildKeyPattern push key) text behind m := by
  have hown : NumberBehind (m.afterColon ++ (m.value ++ behind)) (decimal 0 m.value) :=
    ⟨m.afterColon, m.value, behind, rfl, (h.placed hm).1.afterColon, hnumber.1, h.behind hm, Nat.mod_eq_of_lt hfits⟩
  rw [jsonGetNum_iff hpush]
  constructor
  · rintro ⟨post, hfirst, hbehind⟩
    by_cases hpost : post = m.afterColon ++ (m.value ++ behind)
    · exact Or.inl (hpost ▸ hfirst)
    · exact Or.inr ⟨post, hfirst, hpost, hbehind⟩
  · rintro (hfirst | ⟨post, hfirst, _, hbehind⟩)
    · exact ⟨_, hfirst, hown⟩
    · exact ⟨post, hfirst, hbehind⟩

end Agreement

/-- `heapless::String<64>::push`. -/
def pushChar (s c : List UInt8) : List UInt8 := if s.length + c.length ≤ 64 then s ++ c else s

theorem pushChar_laws : PushLaws pushChar :=
  ⟨fun h => if_pos h, fun h => if_neg (by omega)⟩

/-- A member without white space. -/
def Member.plain (name value : List UInt8) : Member := ⟨[], name, [], [], value, []⟩

theorem Member.plain_layout {b : UInt8} {value : List UInt8} (hquote : b ≠ 34) (hback : b ≠ 92) (hcontrol : 0x20 ≤ b) :
    (Member.plain [b] value).Layout := by
  have hblank : Blank [] := fun c hc => absurd hc not_mem_nil
  exact ⟨hblank, RawBody.plain hquote hback hcontrol RawBody.nil, hblank, hblank, hblank⟩

theorem value_digit {b : UInt8} (hb : ptIsDigit b = true) : Value [b] := by
  have hdigits : Digits [b] := ⟨cons_ne_nil _ _, fun c hc => mem_singleton.mp hc ▸ hb⟩
  refine Value.number ⟨[], [b], [], [], rfl, by decide, ⟨hdigits, fun h => ?_⟩, Or.inl rfl, Or.inl rfl⟩
  rw [Option.some.inj h]

theorem value_letter {b : UInt8} (hquote : b ≠ 34) (hback : b ≠ 92) (hcontrol : 0x20 ≤ b) : Value (quoted [b]) :=
  Value.string (RawBody.plain hquote hback hcontrol RawBody.nil)

/-- `"b":"x","n":1` -/
def innerMembers : List Member := [Member.plain [98] (quoted [120]), Member.plain [110] [49]]

/-- `"a":{"b":"x","n":1},"b":"y","n":2` -/
def outerMembers : List Member :=
  [Member.plain [97] (123 :: (joined (innerMembers.map Member.text) ++ [125])), Member.plain [98] (quoted [121]),
    Member.plain [110] [50]]

/-- An object with an object in it. -/
def nestedText : List UInt8 := 123 :: (joined (outerMembers.map Member.text) ++ [125])

theorem nestedText_object : ObjectText nestedText outerMembers [125] := by
  have hblank : Blank [] := fun c hc => absurd hc not_mem_nil
  refine ⟨utf8_ascii (by decide +kernel), ⟨[], _, [], hblank, hblank, rfl, rfl, Or.inr ⟨cons_ne_nil _ _, rfl⟩⟩, ?_, ?_⟩
  · intro m hm
    simp only [outerMembers, mem_cons, not_mem_nil, or_false] at hm
    rcases hm with rfl | rfl | rfl <;> exact Member.plain_layout (by decide) (by decide) (by decide)
  · have hinner : Value (123 :: (joined (innerMembers.map Member.text) ++ [125])) := by
      refine Value.object (cons_ne_nil _ _) ?_ ?_
      · intro m hm
        simp only [innerMembers, mem_cons, not_mem_nil, or_false] at hm
        rcases hm with rfl | rfl <;> exact Member.plain_layout (by decide) (by decide) (by decide)
      · intro m hm
        simp only [innerMembers, mem_cons, not_mem_nil, or_false] at hm
        rcases hm with rfl | rfl
        · exact value_letter (by decide) (by decide) (by decide)
        · exact value_digit (by decide)
    intro m hm
    simp only [outerMembers, mem_cons, not_mem_nil, or_false] at hm
    rcases hm with rfl | rfl | rfl
    · exact hinner
    · exact value_letter (by decide) (by decide) (by decide)
    · exact value_digit (by decide)

end Folkering.JsonScan
