/-
  Wire — readers that walk a buffer with a cursor.

  A reader takes the whole buffer, moves a cursor over it and fails with one fixed error when the buffer ends too early.
  `Reads trunc r x enc` says two things about a reader and an encoding `enc` of `x`, wherever in a buffer it stands:
    * `full` — with all of `enc` there, whatever follows, the reader returns `x` and stands behind `enc`;
    * `cut`  — with `enc` cut short and nothing behind it, the reader fails with `trunc`.
  It composes (`bind`, `many`), so for a format that is read field by field both the round trip and the rejection of
  every proper beginning come from facts about single fields.
-/
import Mathlib.Data.List.Basic
import Folkering.Lib.Steps

namespace Folkering.Wire

open List

variable {β ε α γ : Type} {trunc : ε}

/-- The reader gets `x` from its encoding and fails on a proper prefix of it. -/
structure Reads (trunc : ε) (r : List β → Step Nat ε α) (x : α) (enc : List β) : Prop where
  full : ∀ pre post, r (pre ++ (enc ++ post)) pre.length = .ok (x, pre.length + enc.length)
  cut : ∀ pre k, k < enc.length → r (pre ++ enc.take k) pre.length = .error trunc

namespace Reads

theorem pure (x : α) : Reads trunc (fun _ : List β => (Pure.pure x : Step Nat ε α)) x [] :=
  ⟨fun _ _ => rfl, fun _ k hk => absurd hk (Nat.not_lt_zero k)⟩

/-- One reader after another. -/
theorem bind {r : List β → Step Nat ε α} {f : α → List β → Step Nat ε γ} {x : α} {y : γ} {e₁ e₂ : List β}
    (h₁ : Reads trunc r x e₁) (h₂ : Reads trunc (f x) y e₂) :
    Reads trunc (fun buf => r buf >>= fun a => f a buf) y (e₁ ++ e₂) := by
  -- behind the first encoding the second reader sees the same buffer, with more before it
  have hnext : ∀ pre rest, (r (pre ++ (e₁ ++ rest)) >>= fun a => f a (pre ++ (e₁ ++ rest))) pre.length =
      f x ((pre ++ e₁) ++ rest) (pre ++ e₁).length := by
    intro pre rest
    rw [Step.bind_run (h₁.full pre rest), ← append_assoc, length_append]
  constructor
  · intro pre post
    rw [append_assoc, hnext, h₂.full (pre ++ e₁) post, length_append, length_append, Nat.add_assoc]
  · intro pre k hk
    rw [length_append] at hk
    rcases Nat.lt_or_ge k e₁.length with hlt | hge
    · rw [take_append_of_le_length (Nat.le_of_lt hlt), Step.bind_error]
      exact .inl (h₁.cut pre k hlt)
    · rw [take_append, take_of_length_le hge, hnext]
      exact h₂.cut (pre ++ e₁) (k - e₁.length) (by omega)

/-- A check that passes. -/
theorem guarded {r : List β → Step Nat ε α} {x : α} {enc : List β} {c : Prop} [Decidable c] {e : ε} (hc : ¬ c)
    (h : Reads trunc r x enc) : Reads trunc (fun buf => if c then throw e else r buf) x enc := by
  simpa only [if_neg hc] using h

/-- The result is only repackaged. -/
theorem map {r : List β → Step Nat ε α} {x : α} {enc : List β} (g : α → γ) (h : Reads trunc r x enc) :
    Reads trunc (fun buf => r buf >>= fun a => Pure.pure (g a)) (g x) enc := by
  have hb : Reads trunc (fun buf => r buf >>= fun a => Pure.pure (g a)) (g x) (enc ++ []) :=
    @bind _ _ _ _ _ r (fun a _ => Pure.pure (g a)) _ _ _ _ h (pure (g x))
  rwa [append_nil] at hb

end Reads

/-- The same reader `n` times. -/
def many (r : List β → Step Nat ε α) (buf : List β) : Nat → Step Nat ε (List α)
  | 0 => pure []
  | n + 1 => do
    let x ← r buf
    let xs ← many r buf n
    pure (x :: xs)

theorem Reads.many {r : List β → Step Nat ε α} {enc : α → List β} : ∀ {xs : List α},
    (∀ x ∈ xs, Reads trunc r x (enc x)) → Reads trunc (fun buf => Wire.many r buf xs.length) xs (xs.flatMap enc)
  | [], _ => Reads.pure []
  | x :: xs, h => by
    rw [flatMap_cons]
    have htail := Reads.many fun y hy => h y (mem_cons_of_mem _ hy)
    exact @Reads.bind _ _ _ _ _ r (fun a buf => Wire.many r buf xs.length >>= fun as => Pure.pure (a :: as)) _ _ _ _
      (h x mem_cons_self) (htail.map (x :: ·))

theorem many_length {r : List β → Step Nat ε α} {buf : List β} : ∀ {n p xs q},
    many r buf n p = .ok (xs, q) → xs.length = n
  | 0, p, xs, q, h => by
    cases h
    rfl
  | n + 1, p, xs, q, h => by
    obtain ⟨x, p₁, -, h⟩ := Step.bind_ok.mp h
    obtain ⟨ys, p₂, hys, h⟩ := Step.bind_ok.mp h
    cases h
    rw [length_cons, many_length hys]

/-- The next `n` elements. -/
def bytes (trunc : ε) (n : Nat) (buf : List β) : Step Nat ε (List β) := fun p =>
  if buf.length < p + n then .error trunc else .ok ((buf.drop p).take n, p + n)

theorem bytes_length {n : Nat} {buf xs : List β} {p q : Nat} (h : bytes trunc n buf p = .ok (xs, q)) :
    xs.length = n := by
  unfold bytes at h
  split at h
  · cases h
  · cases h
    rw [length_take, length_drop]
    omega

theorem Reads.bytes (enc : List β) : Reads trunc (Wire.bytes trunc enc.length) enc enc := by
  constructor
  · intro pre post
    rw [Wire.bytes, if_neg (by simp [length_append]), drop_left, take_left]
  · intro pre k hk
    rw [Wire.bytes, if_pos]
    rw [length_append, length_take]
    omega

/-- A whole buffer. -/
theorem Reads.whole {r : List β → Step Nat ε α} {x : α} {enc : List β} (h : Reads trunc r x enc) :
    r enc 0 = .ok (x, enc.length) ∧ ∀ k < enc.length, r (enc.take k) 0 = .error trunc := by
  constructor
  · simpa using h.full [] []
  · intro k hk
    simpa using h.cut [] k hk

end Folkering.Wire
