/-
  Ledgers — what has been issued and what still stands.

  A ledger is the history of a service that hands out keys: it ISSUES a key for a value and later
  RETIRES it.  An issue STANDS when no retirement of its key follows it.  The two lemmas below say
  how one more entry changes what stands; an invariant that relates a table to its ledger is proved
  with them one step at a time.
-/
import Mathlib.Data.List.Basic

namespace Folkering.Ledger

open List

variable {κ ν : Type}

/-- One line of a ledger. -/
inductive Line (κ ν : Type) where
  | issue (key : κ) (value : ν)
  | retire (key : κ)
deriving Repr, DecidableEq

/-- The value was issued under the key and the key has not been retired since. -/
def Standing (led : List (Line κ ν)) (key : κ) (value : ν) : Prop :=
  ∃ before after, led = before ++ .issue key value :: after ∧ .retire key ∉ after

variable {led : List (Line κ ν)} {v : ν}

theorem Standing.issued {k : κ} (h : Standing led k v) : .issue k v ∈ led := by
  obtain ⟨before, after, rfl, -⟩ := h
  simp

theorem not_standing_nil (k : κ) (v : ν) : ¬ Standing ([] : List (Line κ ν)) k v := by
  intro h
  exact absurd h.issued not_mem_nil

/-- A line at the end leaves standing what stood, unless it retires the key. -/
theorem Standing.snoc {k : κ} {x : Line κ ν}
    (h : Standing led k v) (hx : x ≠ .retire k) : Standing (led ++ [x]) k v := by
  obtain ⟨before, after, rfl, hr⟩ := h
  refine ⟨before, after ++ [x], by simp, ?_⟩
  simp only [mem_append, mem_singleton, not_or]
  exact ⟨hr, Ne.symm hx⟩

/-- Looking at a ledger from its last line: an old issue that the line does not retire, or the
    line itself. -/
theorem standing_snoc {k : κ} {x : Line κ ν} :
    Standing (led ++ [x]) k v ↔ (Standing led k v ∧ x ≠ .retire k) ∨ x = .issue k v := by
  constructor
  · rintro ⟨before, after, heq, hr⟩
    -- the last line is the issue itself exactly when nothing follows the issue
    rcases eq_nil_or_concat after with rfl | ⟨after', y, rfl⟩
    · exact .inr (by simpa using (append_inj' heq rfl).2)
    · rw [concat_eq_append, ← cons_append, ← append_assoc] at heq
      obtain ⟨rfl, hy⟩ := append_inj' heq rfl
      obtain rfl : x = y := by simpa using hy
      simp only [concat_eq_append, mem_append, mem_singleton, not_or] at hr
      exact .inl ⟨⟨before, after', rfl, hr.1⟩, Ne.symm hr.2⟩
  · rintro (⟨h, hx⟩ | rfl)
    · exact h.snoc hx
    · exact ⟨led, [], rfl, not_mem_nil⟩

/-- One more issue. -/
theorem standing_snoc_issue {k k' : κ} {v v' : ν} :
    Standing (led ++ [.issue k' v']) k v ↔ Standing led k v ∨ (k' = k ∧ v' = v) := by
  simp [standing_snoc]

/-- One more retirement. -/
theorem standing_snoc_retire {k k' : κ} : Standing (led ++ [.retire k']) k v ↔ Standing led k v ∧ k' ≠ k := by
  simp [standing_snoc]

/-- How many keys a ledger has issued. -/
def issues (led : List (Line κ ν)) : Nat :=
  led.countP fun | .issue _ _ => true | .retire _ => false

@[simp] theorem issues_snoc_issue (led : List (Line κ ν)) (k : κ) (v : ν) :
    issues (led ++ [.issue k v]) = issues led + 1 := by
  simp [issues, countP_append]

@[simp] theorem issues_snoc_retire (led : List (Line κ ν)) (k : κ) : issues (led ++ [.retire k]) = issues led := by
  simp [issues, countP_append]

end Folkering.Ledger
