import Mathlib.Algebra.BigOperators.Ring.Finset
import Mathlib.Algebra.BigOperators.Intervals
import Mathlib.Algebra.Module.BigOperators
import Mathlib.Algebra.Ring.Int.Defs
import Mathlib.Tactic.Abel
import Mathlib.Tactic.Ring

/-!
# Multiples from signed digits

A number written in digits of either sign, the lowest first, and the multiples that a loop of additions
and doublings makes from them.
-/

namespace SignedDigits

/-- The number with these digits. -/
def value (b : ℤ) : List ℤ → ℤ
  | [] => 0
  | d :: l => d + b * value b l

variable {G : Type} [AddCommGroup G]

/-- From the highest digit downwards: a step multiplies by the base and adds the digit's multiple. -/
theorem foldr_eq {step : ℤ → G → G} {b : ℤ} {P : G} {l : List ℤ}
    (h : ∀ d ∈ l, ∀ r, step d r = b • r + d • P) : l.foldr step 0 = value b l • P := by
  induction l with
  | nil => rw [List.foldr_nil, value, zero_smul]
  | cons d l ih =>
    rw [List.foldr_cons, ih fun d' hd' => h d' (List.mem_cons_of_mem _ hd'), h d List.mem_cons_self,
      value, add_smul, mul_smul, add_comm]

theorem foldr_pair_eq {step : ℤ × ℤ → G → G} {b : ℤ} {P Q : G} {l : List (ℤ × ℤ)}
    (h : ∀ d ∈ l, ∀ r, step d r = b • r + (d.1 • P + d.2 • Q)) :
    l.foldr step 0 = value b (l.map Prod.fst) • P + value b (l.map Prod.snd) • Q := by
  induction l with
  | nil => simp [value]
  | cons d l ih =>
    rw [List.foldr_cons, ih fun d' hd' => h d' (List.mem_cons_of_mem _ hd'), h d List.mem_cons_self,
      List.map_cons, List.map_cons, value, value, add_smul, add_smul, mul_smul, mul_smul, smul_add]
    abel

/-- Digits that change nothing can be left out at the top. -/
theorem foldl_dropWhile {α : Type} {step : G → α → G} {p : α → Bool} (h : ∀ d, p d = true → step 0 d = 0)
    (l : List α) : (l.dropWhile p).foldl step 0 = l.foldl step 0 := by
  induction l with
  | nil => rfl
  | cons d l ih =>
    rw [List.dropWhile_cons]
    split
    · next hd => rw [ih, List.foldl_cons, h d hd]
    · rfl

theorem value_eq_sum (b : ℤ) (l : List ℤ) :
    value b l = ∑ k ∈ Finset.range l.length, l.getD k 0 * b ^ k := by
  induction l with
  | nil => rfl
  | cons d l ih =>
    rw [value, ih, List.length_cons, Finset.sum_range_succ', Finset.mul_sum, add_comm]
    simp only [List.getD_cons_succ, List.getD_cons_zero, pow_zero, mul_one, pow_succ]
    congr 1
    exact Finset.sum_congr rfl fun k _ => by ring

theorem sum_even_odd (f : ℕ → ℤ) (n : ℕ) : ∑ k ∈ Finset.range (2 * n), f k =
    ∑ j ∈ Finset.range n, f (2 * j) + ∑ j ∈ Finset.range n, f (2 * j + 1) := by
  induction n with
  | zero => rfl
  | succ n ih =>
    rw [Nat.mul_succ, Finset.sum_range_succ, Finset.sum_range_succ, ih, Finset.sum_range_succ,
      Finset.sum_range_succ]
    ring

theorem foldl_add_range (f : ℕ → G) (n : ℕ) (h : G) :
    (List.range n).foldl (fun h j => h + f j) h = h + ∑ j ∈ Finset.range n, f j := by
  induction n with
  | zero => simp
  | succ n ih =>
    rw [List.range_succ, List.foldl_append, ih, Finset.sum_range_succ, List.foldl_cons, List.foldl_nil,
      add_assoc]

/-- The digits at even and at odd places, with the multiples of the squared base at hand. -/
theorem even_odd_smul (b : ℤ) (P : G) {l : List ℤ} {n : ℕ} (hl : l.length = 2 * n) :
    b • ∑ j ∈ Finset.range n, l.getD (2 * j + 1) 0 • ((b * b) ^ j • P) +
      ∑ j ∈ Finset.range n, l.getD (2 * j) 0 • ((b * b) ^ j • P) = value b l • P := by
  rw [value_eq_sum, hl, sum_even_odd, add_smul, Finset.sum_smul, Finset.sum_smul, Finset.smul_sum,
    add_comm]
  congr 1
  · refine Finset.sum_congr rfl fun j _ => ?_
    rw [← mul_smul]
    congr 1
    rw [pow_mul]
    ring
  · refine Finset.sum_congr rfl fun j _ => ?_
    rw [← mul_smul, ← mul_smul]
    congr 1
    rw [pow_succ, pow_mul]
    ring

end SignedDigits
