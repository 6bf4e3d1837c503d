/-
  LEB128 GROUPS — a number as bytes of seven bits each, the lowest first.

  Every byte of a group but the last has its high bit set.  The digits of a group are its bytes without that
  bit; `unsigned` reads them in base 128, and `signed` takes the last one as a signed digit.
    * `unsigned_lt`, `signed_bounds`  — what a group of a given length can say;
    * `signed_eq`                     — the two readings differ by the width of the group or not at all.
-/
import Mathlib

namespace Folkering.Leb128

/-- The number that a byte adds to its group. -/
def digit (b : UInt8) : Nat := b.toNat % 128

/-- Every byte but the last continues the group. -/
def Group : List UInt8 → Prop
  | [] => False
  | [b] => b.toNat < 128
  | b :: b' :: bs => 128 ≤ b.toNat ∧ Group (b' :: bs)

/-- The value of a group as an unsigned number. -/
def unsigned : List UInt8 → Nat
  | [] => 0
  | b :: bs => digit b + 128 * unsigned bs

/-- The value of a group as a signed number: the last digit is one of `-64 … 63`. -/
def signed : List UInt8 → Int
  | [] => 0
  | [b] => if digit b < 64 then digit b else digit b - 128
  | b :: b' :: bs => digit b + 128 * signed (b' :: bs)

theorem digit_lt (b : UInt8) : digit b < 128 := Nat.mod_lt _ (by decide)

theorem group_cons_iff {b : UInt8} {bs : List UInt8} :
    Group (b :: bs) ↔ if b.toNat < 128 then bs = [] else Group bs := by
  cases bs with
  | nil => simp [Group]
  | cons b' bs =>
    by_cases hb : b.toNat < 128
    · simp [Group, hb]
    · simp [Group, hb, Nat.not_lt.mp hb]

theorem Group.ne_nil {g : List UInt8} (hg : Group g) : g ≠ [] := by
  rintro rfl
  exact hg

theorem Group.digit_last {ds : List UInt8} {b : UInt8} (h : Group (ds ++ [b])) : digit b = b.toNat := by
  induction ds with
  | nil => exact Nat.mod_eq_of_lt h
  | cons c ds ih =>
    rw [List.cons_append, group_cons_iff] at h
    split_ifs at h with hc
    · simp at h
    · exact ih h

theorem unsigned_append (g h : List UInt8) :
    unsigned (g ++ h) = unsigned g + 128 ^ g.length * unsigned h := by
  induction g with
  | nil => simp [unsigned]
  | cons b bs ih =>
    rw [List.cons_append, unsigned, unsigned, ih, List.length_cons, Nat.pow_succ]
    ring

theorem signed_append {g h : List UInt8} (hne : h ≠ []) :
    signed (g ++ h) = unsigned g + 128 ^ g.length * signed h := by
  induction g with
  | nil => simp [unsigned]
  | cons b bs ih =>
    obtain ⟨b', bs', hcons⟩ := List.exists_cons_of_ne_nil (List.append_ne_nil_of_right_ne_nil bs hne)
    rw [List.cons_append, hcons, signed, ← hcons, ih, unsigned, List.length_cons, pow_succ]
    push_cast
    ring

theorem unsigned_lt (g : List UInt8) : unsigned g < 128 ^ g.length := by
  induction g with
  | nil => simp [unsigned]
  | cons b bs ih =>
    have hb := digit_lt b
    rw [unsigned, List.length_cons, Nat.pow_succ]
    omega

theorem signed_singleton_bounds (b : UInt8) : -64 ≤ signed [b] ∧ signed [b] < 64 := by
  have hb := digit_lt b
  rw [signed]
  split_ifs <;> omega

/-- A group is a number of fewer digits followed by its last one. -/
theorem exists_last {g : List UInt8} (hne : g ≠ []) : ∃ ds b, g = ds ++ [b] :=
  ⟨g.dropLast, g.getLast hne, (List.dropLast_append_getLast hne).symm⟩

theorem signed_bounds {g : List UInt8} (hne : g ≠ []) :
    -(64 * 128 ^ (g.length - 1)) ≤ signed g ∧ signed g < 64 * 128 ^ (g.length - 1) := by
  obtain ⟨ds, b, rfl⟩ := exists_last hne
  have hds : (unsigned ds : Int) < 128 ^ ds.length := by exact_mod_cast unsigned_lt ds
  have hpow : (0 : Int) < 128 ^ ds.length := by positivity
  obtain ⟨hlow, hhigh⟩ := signed_singleton_bounds b
  rw [signed_append (List.cons_ne_nil _ _), List.length_append, List.length_singleton, Nat.add_sub_cancel]
  constructor
  · nlinarith
  · nlinarith

/-- The signed reading is the unsigned one, less the width of the group when the last digit is negative. -/
theorem signed_eq {ds : List UInt8} {b : UInt8} : signed (ds ++ [b]) =
    unsigned (ds ++ [b]) - if digit b < 64 then 0 else (128 : Int) ^ (ds.length + 1) := by
  rw [signed_append (List.cons_ne_nil _ _), unsigned_append, signed, unsigned, unsigned]
  split_ifs
  · push_cast
    ring
  · push_cast
    ring

end Folkering.Leb128
