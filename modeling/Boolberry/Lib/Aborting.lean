import Mathlib.Data.List.Basic
import Mathlib.Logic.Relation

/-!
# Calls that abort

A call on a state of type `σ` returns a value or throws, and in both cases leaves a
state. What it leaves is bounded by what its parts leave.
-/

namespace Aborting

variable {σ α β : Type}

/-- What a call leaves, read from its value by `f` when it returns, satisfies `P`. -/
inductive Leaves (P : σ → Prop) (f : α → σ) : Except σ α → Prop
  | ok {a : α} : P (f a) → Leaves P f (.ok a)
  | error {s : σ} : P s → Leaves P f (.error s)

variable {P Q : σ → Prop} {f : α → σ} {g : β → σ}

@[simp] theorem leaves_ok {a : α} : Leaves P f (.ok a) ↔ P (f a) := ⟨fun | .ok h => h, .ok⟩

@[simp] theorem leaves_error {s : σ} : Leaves P f (.error s) ↔ P s := ⟨fun | .error h => h, .error⟩

theorem Leaves.mono {r : Except σ α} (h : Leaves P f r) (hPQ : ∀ s, P s → Q s) : Leaves Q f r := by
  cases h with
  | ok h => exact .ok (hPQ _ h)
  | error h => exact .error (hPQ _ h)

/-- A second part that keeps what the first one left. -/
theorem Leaves.bind {r : Except σ α} {k : α → Except σ β} (h : Leaves P f r)
    (hk : ∀ a, P (f a) → Leaves P g (k a)) : Leaves P g (r >>= k) := by
  cases h with
  | ok h => exact hk _ h
  | error h => exact .error h

theorem Leaves.foldlM {ι : Type} {step : α → ι → Except σ α}
    (hstep : ∀ a i, P (f a) → Leaves P f (step a i)) {l : List ι} {a : α} (h : P (f a)) :
    Leaves P f (l.foldlM step a) := by
  induction l generalizing a with
  | nil => exact .ok h
  | cons i l ih =>
    rw [List.foldlM_cons]
    exact (hstep a i h).bind fun a' ha' => ih ha'

/-- The state a call leaves. -/
def stateLeft (f : α → σ) : Except σ α → σ
  | .ok a => f a
  | .error s => s

theorem leaves_iff {r : Except σ α} : Leaves P f r ↔ P (stateLeft f r) := by
  cases r with
  | ok a => exact leaves_ok
  | error s => exact leaves_error

theorem stateLeft_map {k : α → β} {r : Except σ α} : stateLeft g (r.map k) = stateLeft (g ∘ k) r := by
  cases r <;> rfl

theorem bind_eq_ok {r : Except σ α} {k : α → Except σ β} {b : β} :
    r >>= k = .ok b ↔ ∃ a, r = .ok a ∧ k a = .ok b := by
  cases r with
  | ok a => exact ⟨fun h => ⟨a, rfl, h⟩, fun ⟨_, ha, hb⟩ => by cases ha; exact hb⟩
  | error s => exact ⟨(nomatch ·), fun ⟨_, ha, _⟩ => nomatch ha⟩

theorem toOption_eq_some {r : Except σ α} {a : α} : r.toOption = some a ↔ r = .ok a := by
  cases r <;> simp [Except.toOption]

@[simp] theorem ok_bind {a : α} {k : α → Except σ β} : (Except.ok a : Except σ α) >>= k = k a := rfl

@[simp] theorem error_bind {s : σ} {k : α → Except σ β} :
    (Except.error s : Except σ α) >>= k = .error s := rfl

end Aborting
