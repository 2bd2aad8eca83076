import Mathlib.Tactic.Ring
import Boolberry.Difficulty

/-!
# The proof-of-work comparison

`check_hash` has a chain of carries for difficulties of one word and wide integers for the others. The
shortcut of the wide path is right for difficulties of more than one word. It is also taken for the
largest one that fits a word.
-/

namespace Boolberry

theorem hashWord_lt (h : Hash) (i : ℕ) : hashWord h i < 2 ^ 64 := Nat.mod_lt _ (by decide)

theorem hash_eq_words (h : Hash) : h.toNat =
    hashWord h 0 + 2 ^ 64 * hashWord h 1 + 2 ^ 128 * hashWord h 2 + 2 ^ 192 * hashWord h 3 := by
  have hlt := h.isLt
  unfold hashWord
  omega

theorem mulLow_add_mulHigh (a b : ℕ) : a * b = mulLow a b + 2 ^ 64 * mulHigh a b :=
  (Nat.mod_add_div (a * b) (2 ^ 64)).symm

theorem mulLow_lt (a b : ℕ) : mulLow a b < 2 ^ 64 := Nat.mod_lt _ (by decide)

theorem mulHigh_lt {a b : ℕ} (ha : a < 2 ^ 64) (hb : b < 2 ^ 64) : mulHigh a b < 2 ^ 64 := by
  refine Nat.div_lt_of_lt_mul ?_
  calc a * b ≤ a * 2 ^ 64 := Nat.mul_le_mul_left a hb.le
    _ < 2 ^ 64 * 2 ^ 64 := Nat.mul_lt_mul_of_pos_right ha (by decide)

/-- `cadc` is the carry out of a sum of two words and a carry. -/
theorem cadc_iff {a b : ℕ} {c : Bool} (ha : a < 2 ^ 64) (hb : b < 2 ^ 64) :
    cadc a b c = true ↔ 2 ^ 64 ≤ a + b + c.toNat := by
  unfold cadc
  cases c with
  | false =>
    simp only [Bool.false_and, Bool.or_false, decide_eq_true_eq, Bool.toNat_false]
    omega
  | true =>
    simp only [Bool.true_and, Bool.or_eq_true, decide_eq_true_eq, beq_iff_eq, Bool.toNat_true]
    omega

theorem cadd_eq_cadc (a b : ℕ) : cadd a b = cadc a b false := by
  simp [cadd, cadc]

/-- Four partial products with their carries overflow exactly when the product does. -/
theorem carryChain_iff (h : Hash) {d : ℕ} (hd : d < 2 ^ 64) :
    (mulHigh (hashWord h 3) d = 0 ∧
      cadc (mulHigh (hashWord h 2) d) (mulLow (hashWord h 3) d)
        (cadc (mulHigh (hashWord h 1) d) (mulLow (hashWord h 2) d)
          (cadd (mulHigh (hashWord h 0) d) (mulLow (hashWord h 1) d))) = false) ↔
      h.toNat * d ≤ 2 ^ 256 - 1 := by
  have hw := hashWord_lt h
  have hprod : h.toNat * d = hashWord h 0 * d + 2 ^ 64 * (hashWord h 1 * d) +
      2 ^ 128 * (hashWord h 2 * d) + 2 ^ 192 * (hashWord h 3 * d) := by
    rw [hash_eq_words h]
    ring
  have hlow := fun i => mulLow_lt (hashWord h i) d
  have hhigh := fun i => mulHigh_lt (hw i) hd
  rw [mulLow_add_mulHigh (hashWord h 0), mulLow_add_mulHigh (hashWord h 1),
    mulLow_add_mulHigh (hashWord h 2), mulLow_add_mulHigh (hashWord h 3)] at hprod
  rw [cadd_eq_cadc]
  generalize hc₁ : cadc (mulHigh (hashWord h 0) d) (mulLow (hashWord h 1) d) false = c₁
  generalize hc₂ : cadc (mulHigh (hashWord h 1) d) (mulLow (hashWord h 2) d) c₁ = c₂
  have h₁ := cadc_iff (c := false) (hhigh 0) (hlow 1)
  have h₂ := cadc_iff (c := c₁) (hhigh 1) (hlow 2)
  have h₃ := cadc_iff (c := c₂) (hhigh 2) (hlow 3)
  rw [hc₁] at h₁
  rw [hc₂] at h₂
  rw [← Bool.not_eq_true, h₃, hprod]
  have hlow₀ := hlow 0
  have hlow₁ := hlow 1
  have hlow₂ := hlow 2
  have hlow₃ := hlow 3
  have hhigh₀ := hhigh 0
  have hhigh₁ := hhigh 1
  have hhigh₂ := hhigh 2
  cases c₁ <;> cases c₂ <;> simp only [Bool.toNat_false, Bool.toNat_true, true_iff, Bool.false_eq_true,
    false_iff] at h₁ h₂ ⊢ <;> omega

/-- Below the largest word the comparison is exact. -/
theorem checkHash_of_lt (h : Hash) {d : WideDifficulty} (hd : d.toNat < 2 ^ 64 - 1) :
    checkHash h d = true ↔ h.toNat * d.toNat ≤ 2 ^ 256 - 1 := by
  rw [← carryChain_iff h (by omega)]
  unfold checkHash
  dsimp only
  rw [if_pos hd]
  split_ifs with htop
  · simp [htop]
  · simp [not_not.mp htop]

theorem checkHash_of_le (h : Hash) {d : WideDifficulty} (hd : 2 ^ 64 - 1 ≤ d.toNat) :
    checkHash h d = true ↔ h.toNat < 2 ^ 192 ∧ h.toNat * d.toNat ≤ 2 ^ 256 - 1 := by
  have htop : 0 < hashWord h 3 ↔ ¬h.toNat < 2 ^ 192 := by
    have hw := hash_eq_words h
    have h₀ := hashWord_lt h 0
    have h₁ := hashWord_lt h 1
    have h₂ := hashWord_lt h 2
    omega
  unfold checkHash
  dsimp only
  rw [if_neg (by omega)]
  split_ifs with h3
  · simp only [false_iff, not_and]
    exact fun hlt => absurd hlt (htop.mp h3)
  · rw [decide_eq_true_iff, and_iff_right (not_not.mp fun hn => h3 (htop.mpr hn))]

/-- The comparison is exact besides the largest difficulty of one word, where it refuses the hashes
from `2 ^ 192` to `(2 ^ 256 - 1) / (2 ^ 64 - 1)`. -/
theorem checkHash_exact_iff (h : Hash) (d : WideDifficulty) :
    (checkHash h d = true ↔ h.toNat * d.toNat ≤ 2 ^ 256 - 1) ↔
      ¬(d.toNat = 2 ^ 64 - 1 ∧ 2 ^ 192 ≤ h.toNat ∧
        h.toNat ≤ 2 ^ 192 + 2 ^ 128 + 2 ^ 64 + 1) := by
  rcases Nat.lt_trichotomy d.toNat (2 ^ 64 - 1) with hd | hd | hd
  · simp only [checkHash_of_lt h hd, true_iff, not_and]
    exact fun heq => absurd heq hd.ne
  · rw [checkHash_of_le h hd.ge, hd]
    omega
  · have hle : 2 ^ 192 ≤ h.toNat → 2 ^ 256 ≤ h.toNat * d.toNat := by
      intro hh
      calc 2 ^ 256 = 2 ^ 192 * 2 ^ 64 := by norm_num
        _ ≤ h.toNat * d.toNat := Nat.mul_le_mul hh (by omega)
    rw [checkHash_of_le h hd.le]
    omega

/-- The hash `2 ^ 192` meets the largest difficulty of one word and is refused. -/
theorem checkHash_refuses_at_seam : ¬∀ (h : Hash) (d : WideDifficulty),
    checkHash h d = true ↔ h.toNat * d.toNat ≤ 2 ^ 256 - 1 := by
  intro hall
  have hmeets := (hall (BitVec.ofNat 256 (2 ^ 192)) (BitVec.ofNat 128 (2 ^ 64 - 1))).mpr (by decide)
  exact absurd hmeets (by decide)

end Boolberry
