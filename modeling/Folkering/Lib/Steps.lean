/-
  Steps — fallible state-passing programs, and what a whole program keeps.

  A step of type `Step σ ε α` reads and replaces a state `σ` and returns a value or a failure `ε`.
  Three ways of reasoning about a program built from steps:
    * `bind_ok`, `bind_error` — INVERSION: a successful program is a chain of successful steps, a
      failing one fails at some step of the chain;
    * `Keeps R m`             — every successful run of `m` relates its states by `R`.  For a
      reflexive and transitive `R` this is closed under sequencing, so a fact about a long program
      is proved at its primitive steps only;
    * `Maintains P m`         — every successful run of `m` keeps the invariant `P`.
-/
import Mathlib.Order.Defs.Unbundled

namespace Folkering

/-- A fallible step on a state. -/
abbrev Step (σ ε α : Type) := StateT σ (Except ε) α

namespace Step

variable {σ ε α β : Type}

/-! ## Inversion -/

/-- A successful sequence is a successful step and a successful rest. -/
theorem bind_ok {m : Step σ ε α} {f : α → Step σ ε β} {s : σ} {r : β × σ} :
    (m >>= f) s = .ok r ↔ ∃ a s₁, m s = .ok (a, s₁) ∧ f a s₁ = .ok r := by
  cases h : m s with
  | error e => simp [bind, StateT.bind, Except.bind, h]
  | ok p =>
    simp only [bind, StateT.bind, Except.bind, h, Except.ok.injEq]
    exact ⟨fun hf => ⟨p.1, p.2, rfl, hf⟩, by rintro ⟨a, s₁, rfl, hf⟩; exact hf⟩

/-- A failing sequence fails in its first step or in the rest. -/
theorem bind_error {m : Step σ ε α} {f : α → Step σ ε β} {s : σ} {e : ε} :
    (m >>= f) s = .error e ↔
      m s = .error e ∨ ∃ a s₁, m s = .ok (a, s₁) ∧ f a s₁ = .error e := by
  cases h : m s with
  | error e' => simp [bind, StateT.bind, Except.bind, h]
  | ok p =>
    simp only [bind, StateT.bind, Except.bind, h, Except.ok.injEq, reduceCtorEq, false_or]
    exact ⟨fun hf => ⟨p.1, p.2, rfl, hf⟩, by rintro ⟨a, s₁, rfl, hf⟩; exact hf⟩

@[simp] theorem modify_run (f : σ → σ) (s : σ) :
    (modify f : Step σ ε Unit) s = .ok ((), f s) := rfl

@[simp] theorem get_run (s : σ) : (get : Step σ ε σ) s = .ok (s, s) := rfl

/-- Sequencing after a step that succeeds. -/
theorem bind_run {m : Step σ ε α} {f : α → Step σ ε β} {s s₁ : σ} {a : α}
    (h : m s = .ok (a, s₁)) : (m >>= f) s = f a s₁ := by
  simp only [bind, StateT.bind, Except.bind, h]

/-- An outcome that a test found to be a success. -/
theorem ok_of_toOption {x : Except ε α} {a : α} (h : x.toOption = some a) : x = .ok a := by
  cases x with
  | error e => cases h
  | ok b =>
    cases h
    rfl

/-- A step that is taken under a condition. -/
def when (c : Prop) [Decidable c] (m : Step σ ε Unit) : Step σ ε Unit := if c then m else pure ()

/-! ## Relations kept by a program -/

/-- Every successful run of `m` relates the states before and after by `R`. -/
def Keeps (R : σ → σ → Prop) (m : Step σ ε α) : Prop :=
  ∀ s a s', m s = .ok (a, s') → R s s'

variable {R : σ → σ → Prop}

theorem Keeps.pure [Std.Refl R] (a : α) : Keeps R (pure a : Step σ ε α) := by
  intro s b s' h
  cases h
  exact refl s

/-- A transitive relation is kept by a sequence if both parts keep it. -/
theorem Keeps.bind [IsTrans σ R] {m : Step σ ε α} {f : α → Step σ ε β} (hm : Keeps R m)
    (hf : ∀ a, Keeps R (f a)) : Keeps R (m >>= f) := by
  intro s b s' h
  obtain ⟨a, s₁, h₁, h₂⟩ := bind_ok.mp h
  exact IsTrans.trans s s₁ s' (hm s a s₁ h₁) (hf a s₁ b s' h₂)

theorem Keeps.modify {f : σ → σ} (h : ∀ s, R s (f s)) :
    Keeps R (modify f : Step σ ε Unit) := by
  intro s a s' hs
  cases hs
  exact h s

theorem Keeps.get [Std.Refl R] : Keeps R (get : Step σ ε σ) := by
  intro s a s' h
  cases h
  exact refl s

theorem Keeps.ite {c : Prop} [Decidable c] {m m' : Step σ ε α} (hm : c → Keeps R m) (hm' : ¬ c → Keeps R m') :
    Keeps R (if c then m else m') := by
  by_cases hc : c
  · rw [if_pos hc]
    exact hm hc
  · rw [if_neg hc]
    exact hm' hc

theorem Keeps.when [Std.Refl R] {c : Prop} [Decidable c] {m : Step σ ε Unit} (hm : c → Keeps R m) :
    Keeps R (when c m) := Keeps.ite hm fun _ => Keeps.pure ()

/-! ## Invariants -/

/-- A successful run of `m` keeps the invariant `P`. -/
def Maintains (P : σ → Prop) (m : Step σ ε α) : Prop := ∀ s a s', P s → m s = .ok (a, s') → P s'

/-- `P` before gives `P` after. -/
def Preserves (P : σ → Prop) (s s' : σ) : Prop := P s → P s'

instance (P : σ → Prop) : Std.Refl (Preserves P) := ⟨fun _ h => h⟩

instance (P : σ → Prop) : IsTrans σ (Preserves P) := ⟨fun _ _ _ h h' hs => h' (h hs)⟩

/-- An invariant is a relation that is kept. -/
theorem Maintains.of_keeps {P : σ → Prop} {m : Step σ ε α} (h : Keeps (Preserves P) m) : Maintains P m :=
  fun s a s' hs hrun => h s a s' hrun hs

end Step

end Folkering
