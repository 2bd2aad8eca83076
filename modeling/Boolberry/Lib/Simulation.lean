import Mathlib.Data.List.Basic

/-!
# Simulation

Two objects that answer calls: one answers like the other on every sequence of calls
when a relation between their states is kept by every call.
-/

namespace Simulation

variable {σ α ω ο : Type*}

/-- The answers to a sequence of calls. -/
def answers (step : σ → ω → ο × σ) : σ → List ω → List ο
  | _, [] => []
  | s, c :: l => (step s c).1 :: answers step (step s c).2 l

/-- Every call is allowed where it is made. -/
def AllowedRun (step : α → ω → ο × α) (Allowed : α → ω → Prop) : α → List ω → Prop
  | _, [] => True
  | a, c :: l => Allowed a c ∧ AllowedRun step Allowed (step a c).2 l

/-- One call keeps the relation and is answered alike. -/
def Simulates (conc : σ → ω → ο × σ) (spec : α → ω → ο × α) (Allowed : α → ω → Prop)
    (R : σ → α → Prop) : Prop :=
  ∀ s a c, R s a → Allowed a c → (conc s c).1 = (spec a c).1 ∧ R (conc s c).2 (spec a c).2

theorem answers_eq {conc : σ → ω → ο × σ} {spec : α → ω → ο × α} {Allowed : α → ω → Prop}
    {R : σ → α → Prop} (hsim : Simulates conc spec Allowed R) {s : σ} {a : α} (h : R s a)
    {l : List ω} (hl : AllowedRun spec Allowed a l) : answers conc s l = answers spec a l := by
  induction l generalizing s a with
  | nil => rfl
  | cons c l ih =>
    obtain ⟨hc, hl⟩ := hl
    obtain ⟨hans, hnext⟩ := hsim s a c h hc
    rw [answers, answers, hans, ih hnext hl]

end Simulation
