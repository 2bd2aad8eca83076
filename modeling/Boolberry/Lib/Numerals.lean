import Mathlib.Data.Nat.Digits.Lemmas

/-!
# Numerals of a fixed width

The lowest digits of a number, as many as asked for, lowest first. With `Nat.ofDigits` they are the two
directions of one correspondence between numbers below `b ^ n` and lists of `n` digits.
-/

namespace Numerals

variable {b : ℕ}

/-- The `n` lowest digits of `v`. -/
def digits (b : ℕ) : ℕ → ℕ → List ℕ
  | 0, _ => []
  | n + 1, v => v % b :: digits b n (v / b)

@[simp] theorem length_digits (n v : ℕ) : (digits b n v).length = n := by
  induction n generalizing v with
  | zero => rfl
  | succ n ih => rw [digits, List.length_cons, ih]

theorem lt_of_mem_digits (hb : 0 < b) {n v d : ℕ} (h : d ∈ digits b n v) : d < b := by
  induction n generalizing v with
  | zero => exact absurd h List.not_mem_nil
  | succ n ih =>
    rcases List.mem_cons.mp h with rfl | h
    · exact Nat.mod_lt _ hb
    · exact ih h

theorem digits_zero_right (n : ℕ) : digits b n 0 = List.replicate n 0 := by
  induction n with
  | zero => rfl
  | succ n ih => rw [digits, Nat.zero_mod, Nat.zero_div, ih, List.replicate_succ]

/-- The digits of a number that they are enough for give it back. -/
theorem ofDigits_digits {n v : ℕ} (h : v < b ^ n) : Nat.ofDigits b (digits b n v) = v := by
  induction n generalizing v with
  | zero =>
    rw [digits, Nat.ofDigits_nil]
    rw [pow_zero] at h
    omega
  | succ n ih =>
    rw [pow_succ'] at h
    rw [digits, Nat.ofDigits_cons, ih (Nat.div_lt_of_lt_mul h), Nat.mod_add_div]

theorem digits_ofDigits {l : List ℕ} (h : ∀ d ∈ l, d < b) :
    digits b l.length (Nat.ofDigits b l) = l := by
  induction l with
  | nil => rfl
  | cons d l ih =>
    rw [List.forall_mem_cons] at h
    have hpos : 0 < b := (Nat.zero_le d).trans_lt h.1
    rw [List.length_cons, digits, Nat.ofDigits_cons, Nat.add_mul_mod_self_left, Nat.mod_eq_of_lt h.1,
      Nat.add_mul_div_left _ _ hpos, Nat.div_eq_of_lt h.1, Nat.zero_add, ih h.2]

end Numerals
