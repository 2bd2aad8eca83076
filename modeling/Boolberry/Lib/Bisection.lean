import Mathlib.Data.Nat.Basic
import Mathlib.Tactic.SplitIfs

/-!
# Bisection

Halving an interval of numbers until its ends are neighbours. The search ends at the boundary of what
fits, and the number tried last is the one below it or the one above it: whichever of the two the
halving reaches later.
-/

namespace Bisection

/-- Halves `(low, high)`: the low end when nothing is left between the ends, and the number tried last,
`tried` when none is. -/
def search (fits : ℕ → Bool) : ℕ → ℕ → ℕ → ℕ → ℕ × ℕ
  | 0, low, _, tried => (low, tried)
  | fuel + 1, low, high, tried =>
      if high ≤ low + 1 then (low, tried)
      else if fits ((low + high) / 2) then search fits fuel ((low + high) / 2) high ((low + high) / 2)
      else search fits fuel low ((low + high) / 2) ((low + high) / 2)

/-- The round in which the halving of `(low, high)` reaches `k`. -/
def round : ℕ → ℕ → ℕ → ℕ → ℕ
  | 0, _, _, _ => 0
  | fuel + 1, low, high, k =>
      if k = (low + high) / 2 then 0
      else if k < (low + high) / 2 then round fuel low ((low + high) / 2) k + 1
      else round fuel ((low + high) / 2) high k + 1

section Rounds

variable {fuel low high k : ℕ}

theorem round_middle : round fuel low high ((low + high) / 2) = 0 := by
  cases fuel with
  | zero => rfl
  | succ fuel => exact if_pos rfl

theorem round_below (h : k < (low + high) / 2) :
    round (fuel + 1) low high k = round fuel low ((low + high) / 2) k + 1 := by
  rw [round, if_neg (Nat.ne_of_lt h), if_pos h]

theorem round_above (h : (low + high) / 2 < k) :
    round (fuel + 1) low high k = round fuel ((low + high) / 2) high k + 1 := by
  rw [round, if_neg (Nat.ne_of_gt h), if_neg (Nat.not_lt.mpr (Nat.le_of_lt h))]

end Rounds

/-- The halving of `(low, high)` tries `k` later than `k + 1`. -/
def TriedAfter (fuel low high k : ℕ) : Prop :=
  low < k ∧ (k + 1 = high ∨ round fuel low high (k + 1) < round fuel low high k)

/-- The halving of `(low, high)` tries `k + 1` later than `k`. -/
def TriedBefore (fuel low high k : ℕ) : Prop :=
  k + 1 < high ∧ (k = low ∨ round fuel low high k < round fuel low high (k + 1))

theorem TriedAfter.not_before {fuel low high k : ℕ} (h : TriedAfter fuel low high k) :
    ¬TriedBefore fuel low high k := by
  rintro ⟨hlt, hk⟩
  rcases h with ⟨hlow, hh⟩
  omega

/-- Where a number fits as soon as a larger one does, there is a boundary. -/
theorem exists_boundary {fits : ℕ → Bool} {low high : ℕ} (hlt : low + 1 ≤ high)
    (hdown : ∀ i j, low < i → i ≤ j → j < high → fits j = true → fits i = true) :
    ∃ k, low ≤ k ∧ k < high ∧ ∀ j, low < j → j < high → (fits j = true ↔ j ≤ k) := by
  induction high, hlt using Nat.le_induction with
  | base => exact ⟨low, le_rfl, Nat.lt_succ_self low, fun j hj hj' => by omega⟩
  | succ high hlt ih =>
    by_cases hfit : fits high = true
    · refine ⟨high, by omega, Nat.lt_succ_self high, fun j hj hj' => ?_⟩
      have hle : j ≤ high := Nat.le_of_lt_succ hj'
      exact ⟨fun _ => hle, fun _ => hdown j high hj hle (Nat.lt_succ_self high) hfit⟩
    · obtain ⟨k, hlow, hhigh, hk⟩ := ih fun i j hi hij hj => hdown i j hi hij (by omega)
      refine ⟨k, hlow, by omega, fun j hj hj' => ?_⟩
      rcases Nat.eq_or_lt_of_le (Nat.le_of_lt_succ hj') with rfl | hj'
      · exact ⟨fun h => absurd h hfit, fun h => by omega⟩
      · exact hk j hj hj'

/-- Where the numbers that fit are those up to `k`, the search ends at `k`, and the last number it tried
is `k` or `k + 1`. -/
theorem search_spec {fits : ℕ → Bool} {fuel low high tried k : ℕ} (hlow : low ≤ k) (hhigh : k < high)
    (hfuel : high ≤ low + fuel + 1)
    (hfits : ∀ j, low < j → j < high → (fits j = true ↔ j ≤ k)) :
    (search fits fuel low high tried).1 = k ∧
      ((search fits fuel low high tried).2 = k ∧ TriedAfter fuel low high k ∨
        (search fits fuel low high tried).2 = k + 1 ∧ TriedBefore fuel low high k ∨
        high = low + 1 ∧ (search fits fuel low high tried).2 = tried) := by
  induction fuel generalizing low high tried with
  | zero => exact ⟨by rw [search]; omega, .inr (.inr ⟨by omega, rfl⟩)⟩
  | succ fuel ih =>
    unfold search
    by_cases hend : high ≤ low + 1
    · rw [if_pos hend]
      exact ⟨by dsimp only; omega, .inr (.inr ⟨by omega, rfl⟩)⟩
    · rw [if_neg hend]
      have hmid : low < (low + high) / 2 ∧ (low + high) / 2 < high := by omega
      have hround := @round_middle (fuel + 1) low high
      by_cases hfit : fits ((low + high) / 2) = true
      · -- the upper half, whose low end is tried just now
        have hk : (low + high) / 2 ≤ k := (hfits _ hmid.1 hmid.2).mp hfit
        rw [if_pos hfit]
        have habove : ∀ j, (low + high) / 2 < j → _ := fun j => @round_above fuel low high j
        obtain ⟨hend, hlast⟩ := @ih ((low + high) / 2) high ((low + high) / 2) hk hhigh (by omega)
          fun j hj hj' => hfits j (by omega) hj'
        refine ⟨hend, ?_⟩
        -- where the search of the half tried nothing, the middle is what was tried last
        rcases hlast with ⟨hlast, hlt, hafter⟩ | ⟨hlast, hlt, hbefore⟩ | ⟨hnext, hlast⟩
        · refine .inl ⟨hlast, by omega, ?_⟩
          rw [habove _ hlt, habove _ (by omega)]
          omega
        · refine .inr (.inl ⟨hlast, hlt, .inr ?_⟩)
          rw [habove (k + 1) (by omega)]
          rcases hbefore with rfl | hbefore
          · omega
          · rcases Nat.eq_or_lt_of_le hk with rfl | hk
            · omega
            · rw [habove _ hk]
              omega
        · exact .inl ⟨by omega, by omega, .inl (by omega)⟩
      · -- the lower half, whose high end is tried just now
        have hk : k < (low + high) / 2 :=
          Nat.lt_of_not_le fun hk => hfit ((hfits _ hmid.1 hmid.2).mpr hk)
        rw [if_neg hfit]
        have hbelow : ∀ j, j < (low + high) / 2 → _ := fun j => @round_below fuel low high j
        obtain ⟨hend, hlast⟩ := @ih low ((low + high) / 2) ((low + high) / 2) hlow hk (by omega)
          fun j hj hj' => hfits j hj (by omega)
        refine ⟨hend, ?_⟩
        rcases hlast with ⟨hlast, hlt, hafter⟩ | ⟨hlast, hlt, hbefore⟩ | ⟨hnext, hlast⟩
        · refine .inl ⟨hlast, hlt, .inr ?_⟩
          rw [hbelow k hk]
          rcases Nat.eq_or_lt_of_le hk with hk | hk
          · rw [Nat.succ_eq_add_one] at hk
            rw [hk]
            omega
          · rw [hbelow (k + 1) hk]
            omega
        · refine .inr (.inl ⟨hlast, by omega, ?_⟩)
          rw [hbelow k hk, hbelow (k + 1) hlt]
          omega
        · exact .inr (.inl ⟨by omega, by omega, .inl (by omega)⟩)

end Bisection
