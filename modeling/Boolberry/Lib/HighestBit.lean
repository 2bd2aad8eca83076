import Mathlib.Data.Nat.Log
import Mathlib.Data.Nat.Bitwise

/-!
# The highest bit of a word

Doubling shifts smear the bits of a word downwards until every bit below the highest one is set. What the
word then has more than its half is the highest bit alone.
-/

namespace HighestBit

variable {w : ℕ}

/-- The word after `n` rounds, with shifts by `1`, `2`, `4`, … -/
def smear (x : BitVec w) : ℕ → BitVec w
  | 0 => x
  | n + 1 => smear x n ||| smear x n >>> 2 ^ n

def highest (x : BitVec w) (n : ℕ) : BitVec w := smear x n &&& ~~~(smear x n >>> 1)

/-- A bit is set after `n` rounds when one of the `2 ^ n` bits from it upwards was. -/
theorem getLsbD_smear (x : BitVec w) (n p : ℕ) :
    (smear x n).getLsbD p = true ↔ ∃ q, p ≤ q ∧ q < p + 2 ^ n ∧ x.getLsbD q = true := by
  induction n generalizing p with
  | zero =>
    rw [smear, pow_zero]
    constructor
    · exact fun h => ⟨p, le_rfl, Nat.lt_succ_self p, h⟩
    · rintro ⟨q, hle, hlt, h⟩
      rwa [show p = q by omega]
  | succ n ih =>
    rw [smear, BitVec.getLsbD_or, BitVec.getLsbD_ushiftRight, Bool.or_eq_true, ih, ih, pow_succ]
    constructor
    · rintro (⟨q, hle, hlt, h⟩ | ⟨q, hle, hlt, h⟩)
      · exact ⟨q, hle, by omega, h⟩
      · exact ⟨q, by omega, by omega, h⟩
    · rintro ⟨q, hle, hlt, h⟩
      by_cases hlow : q < p + 2 ^ n
      · exact .inl ⟨q, hle, hlow, h⟩
      · exact .inr ⟨q, by omega, by omega, h⟩

/-- When the rounds cover the word, a bit is set if one from it upwards was. -/
theorem getLsbD_smear_all (x : BitVec w) {n : ℕ} (hn : w ≤ 2 ^ n) (p : ℕ) :
    (smear x n).getLsbD p = true ↔ ∃ q, p ≤ q ∧ x.getLsbD q = true := by
  rw [getLsbD_smear]
  constructor
  · rintro ⟨q, hle, -, h⟩
    exact ⟨q, hle, h⟩
  · rintro ⟨q, hle, h⟩
    have hlt : q < w := BitVec.lt_of_getLsbD h
    exact ⟨q, hle, by omega, h⟩

theorem toNat_highest {x : BitVec w} (hx : x ≠ 0) {n : ℕ} (hn : w ≤ 2 ^ n) :
    (highest x n).toNat = 2 ^ Nat.log2 x.toNat := by
  have hne : x.toNat ≠ 0 := fun h => hx (BitVec.eq_of_toNat_eq h)
  have htop : x.getLsbD (Nat.log2 x.toNat) = true := Nat.testBit_log2 hne
  have habove : ∀ q, x.getLsbD q = true → q ≤ Nat.log2 x.toNat := by
    intro q hq
    by_contra hlt
    have hpow : x.toNat < 2 ^ q := (Nat.log2_lt hne).mp (Nat.lt_of_not_le hlt)
    have hfalse : x.toNat.testBit q = false := Nat.testBit_lt_two_pow hpow
    exact Bool.false_ne_true (hfalse.symm.trans hq)
  have hset : ∀ p, (smear x n).getLsbD p = true ↔ p ≤ Nat.log2 x.toNat := by
    intro p
    rw [getLsbD_smear_all x hn]
    constructor
    · rintro ⟨q, hle, hq⟩
      exact hle.trans (habove q hq)
    · exact fun hle => ⟨_, hle, htop⟩
  apply Nat.eq_of_testBit_eq
  intro p
  change (highest x n).getLsbD p = _
  have hbit : (highest x n).getLsbD p = true ↔ Nat.log2 x.toNat = p := by
    rw [highest, BitVec.getLsbD_and, BitVec.getLsbD_not, BitVec.getLsbD_ushiftRight, Bool.and_eq_true,
      Bool.and_eq_true, Bool.not_eq_true', ← Bool.not_eq_true, hset, hset, decide_eq_true_eq]
    have hlt : Nat.log2 x.toNat < w := BitVec.lt_of_getLsbD htop
    omega
  rw [Bool.eq_iff_iff, hbit, Nat.testBit_two_pow, decide_eq_true_eq]

end HighestBit
