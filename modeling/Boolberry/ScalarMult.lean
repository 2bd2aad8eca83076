import Boolberry.Lib.SignedDigits
import Boolberry.ScalarLimbs
import Mathlib.Data.List.Iterate

/-!
# Multiples of points

`ge_scalarmult`, `ge_scalarmult_base` and `ge_double_scalarmult_base_vartime` of `crypto-ops.c`: how a
scalar is recoded into signed digits, and what the loops over the digits add up to. The coordinates
of points are left out: `ge_p2`, `ge_p3`, `ge_p1p1`, `ge_cached` and `ge_precomp` all stand for a point.
-/

namespace Boolberry
namespace ScalarMult

open SignedDigits

/-- `r[i] = 1 & (a[i >> 3] >> (i & 7))`. -/
def slideBits (a : Blob) (i : ℕ) : ℤ := ((a.getD (i >>> 3) 0).toNat >>> (i &&& 7) &&& 1 : ℕ)

/-- The loop over `k`, with `n` places left. -/
def slideCarry : ℕ → ℕ → (ℕ → ℤ) → ℕ → ℤ
  | 0, _, r => r
  | n + 1, k, r =>
      if r k = 0 then Function.update r k 1 else slideCarry n (k + 1) (Function.update r k 0)

/-- The loop over `b`, with `n` rounds left. -/
def slideInner (i : ℕ) : ℕ → ℕ → (ℕ → ℤ) → ℕ → ℤ
  | 0, _, r => r
  | n + 1, b, r =>
      if i + b < 256 then
        if r (i + b) ≠ 0 then
          if r i + r (i + b) * 2 ^ b ≤ 15 then
            slideInner i n (b + 1)
              (Function.update (Function.update r i (r i + r (i + b) * 2 ^ b)) (i + b) 0)
          else if -15 ≤ r i - r (i + b) * 2 ^ b then
            slideInner i n (b + 1)
              (slideCarry (256 - (i + b)) (i + b) (Function.update r i (r i - r (i + b) * 2 ^ b)))
          else r
        else slideInner i n (b + 1) r
      else r

def slideStep (r : ℕ → ℤ) (i : ℕ) : ℕ → ℤ := if r i ≠ 0 then slideInner i 6 1 r else r

def slide (a : Blob) : List ℤ := (List.range 256).map ((List.range 256).foldl slideStep (slideBits a))

/-- From place `k` on the array holds the bits of `U`. -/
def Bits (r : ℕ → ℤ) (k U : ℕ) : Prop := ∀ j, k ≤ j → r j = (U / 2 ^ (j - k) % 2 : ℕ)

section Window

variable {r r₀ : ℕ → ℤ} {i k b U : ℕ}

theorem Bits.head (h : Bits r k U) : r k = (U % 2 : ℕ) := by
  rw [h k le_rfl, Nat.sub_self, pow_zero, Nat.div_one]

theorem Bits.tail (h : Bits r k U) : Bits r (k + 1) (U / 2) := by
  intro j hj
  rw [h j (by omega), show j - k = j - (k + 1) + 1 by omega, pow_succ', Nat.div_div_eq_div_mul]

theorem Bits.cons (hk : r k = (U % 2 : ℕ)) (h : Bits r (k + 1) (U / 2)) : Bits r k U := by
  intro j hj
  by_cases hjk : j = k
  · rw [hjk, hk, Nat.sub_self, pow_zero, Nat.div_one]
  · rw [h j (by omega), show j - k = j - (k + 1) + 1 by omega, pow_succ', Nat.div_div_eq_div_mul]

theorem Bits.congr (h : Bits r k U) (hr : ∀ j, k ≤ j → r₀ j = r j) : Bits r₀ k U := by
  intro j hj
  rw [hr j hj, h j hj]

theorem Bits.of_zero (h : ∀ j, k ≤ j → r j = 0) : Bits r k 0 := by
  intro j hj
  rw [h j hj, Nat.zero_div]
  rfl

theorem Bits.shift {n : ℕ} (hzero : ∀ j, k ≤ j → j < k + n → r j = 0) (h : Bits r (k + n) U) :
    Bits r k (2 ^ n * U) := by
  induction n generalizing k with
  | zero =>
    rw [pow_zero, Nat.one_mul]
    exact h
  | succ n ih =>
    have hpow : 2 ^ (n + 1) * U = 2 * (2 ^ n * U) := by rw [pow_succ', Nat.mul_assoc]
    apply Bits.cons
    · rw [hzero k le_rfl (by omega), hpow, Nat.mul_mod_right]
      rfl
    · rw [hpow, Nat.mul_div_cancel_left _ (by decide)]
      exact ih (fun j hj hj' => hzero j (by omega) (by omega)) (by rwa [Nat.add_right_comm])

theorem slideCarry_spec {n : ℕ} (h : Bits r k U) (hroom : U + 1 < 2 ^ n) :
    Bits (slideCarry n k r) k (U + 1) ∧ ∀ j < k, slideCarry n k r j = r j := by
  induction n generalizing r k U with
  | zero => omega
  | succ n ih =>
    rw [pow_succ] at hroom
    have hhead := h.head
    rw [slideCarry]
    by_cases hk : r k = 0
    · rw [if_pos hk]
      have heven : U % 2 = 0 := by omega
      refine ⟨Bits.cons ?_ (Bits.congr ?_ fun j hj => Function.update_of_ne (by omega) _ _), fun j hj =>
        Function.update_of_ne (by omega) _ _⟩
      · rw [Function.update_self, show (U + 1) % 2 = 1 by omega]
        rfl
      · rw [show (U + 1) / 2 = U / 2 by omega]
        exact h.tail
    · rw [if_neg hk]
      have hodd : U % 2 = 1 := by omega
      obtain ⟨hbits, hlow⟩ := ih (r := Function.update r k 0) (h.tail.congr fun j hj =>
        Function.update_of_ne (by omega) _ _) (by omega)
      refine ⟨Bits.cons ?_ ?_, fun j hj => ?_⟩
      · rw [hlow k (by omega), Function.update_self, show (U + 1) % 2 = 0 by omega]
        rfl
      · rw [show (U + 1) / 2 = U / 2 + 1 by omega]
        exact hbits
      · rw [hlow j (by omega), Function.update_of_ne (by omega)]

/-- `b` bits of `U` have been moved into place `i`. -/
structure Window (r₀ r : ℕ → ℤ) (i b U : ℕ) : Prop where
  digit : r i = (U % 2 ^ b : ℕ)
  zeros : ∀ j, i < j → j < i + b → r j = 0
  bits : Bits r (i + b) (U / 2 ^ b)
  below : ∀ j < i, r j = r₀ j

/-- Place `i` has its final digit, and what is left stands above it. -/
structure Done (r₀ r : ℕ → ℤ) (i U U' : ℕ) : Prop where
  odd : r i % 2 = 1
  lower : -15 ≤ r i
  upper : r i ≤ 15
  value : (U : ℤ) = r i + 2 * U'
  bits : Bits r (i + 1) U'
  room : U' * 2 ^ (i + 1) ≤ 2 ^ 255
  below : ∀ j < i, r j = r₀ j

theorem mod_pow_succ_two (U b : ℕ) : U % 2 ^ (b + 1) = U % 2 ^ b + 2 ^ b * (U / 2 ^ b % 2) :=
  Nat.mod_pow_succ

theorem window_step {n : ℕ} (hb : b ≤ 3) (hib : i + b < 256) (hpos : 0 < b) (h : Window r₀ r i b U) :
    ∃ r', slideInner i (n + 1) b r = slideInner i n (b + 1) r' ∧ Window r₀ r' i (b + 1) U := by
  have hhead := h.bits.head
  have hmod := mod_pow_succ_two U b
  have htail : Bits r (i + (b + 1)) (U / 2 ^ (b + 1)) := by
    rw [pow_succ, ← Nat.div_div_eq_div_mul]
    exact h.bits.tail
  rw [slideInner, if_pos hib]
  by_cases hbit : r (i + b) = 0
  · refine ⟨r, by rw [if_neg (not_not.mpr hbit)], ?_, ?_, htail, h.below⟩
    · rw [h.digit, hmod, show U / 2 ^ b % 2 = 0 by omega, Nat.mul_zero, Nat.add_zero]
    · intro j hj hj'
      by_cases hjb : j = i + b
      · rw [hjb, hbit]
      · exact h.zeros j hj (by omega)
  · have hone : U / 2 ^ b % 2 = 1 := by omega
    rw [hone, Nat.mul_one] at hmod
    rw [hone] at hhead
    have hlt : U % 2 ^ (b + 1) < 2 ^ 4 :=
      (Nat.mod_lt _ (Nat.two_pow_pos _)).trans_le (Nat.pow_le_pow_right (by decide) (by omega))
    have hsum : r i + r (i + b) * 2 ^ b = (U % 2 ^ (b + 1) : ℕ) := by
      rw [h.digit, hhead, hmod]
      push_cast
      ring
    refine ⟨_, by rw [if_pos hbit, if_pos (by rw [hsum]; omega)], ?_, ?_, ?_, ?_⟩
    · rw [Function.update_of_ne (by omega), Function.update_self, hsum]
    · intro j hj hj'
      by_cases hjb : j = i + b
      · rw [hjb, Function.update_self]
      · rw [Function.update_of_ne hjb, Function.update_of_ne (by omega)]
        exact h.zeros j hj (by omega)
    · exact htail.congr fun j hj => by
        rw [Function.update_of_ne (by omega), Function.update_of_ne (by omega)]
    · intro j hj
      rw [Function.update_of_ne (by omega), Function.update_of_ne (by omega)]
      exact h.below j hj

/-- Past the fourth round nothing happens any more. -/
theorem slideInner_late {n : ℕ} (hb : 5 ≤ b) (hlow : -15 ≤ r i) (hup : r i ≤ 15)
    (hbits : ∀ j, i + b ≤ j → r j = 0 ∨ r j = 1) : slideInner i n b r = r := by
  induction n generalizing b with
  | zero => rfl
  | succ n ih =>
    rw [slideInner]
    split
    · by_cases hbit : r (i + b) = 0
      · rw [if_neg (not_not.mpr hbit)]
        exact ih (by omega) fun j hj => hbits j (by omega)
      · have hone : r (i + b) = 1 := (hbits _ le_rfl).resolve_left hbit
        have hpow : (2 : ℤ) ^ 5 ≤ 2 ^ b := pow_le_pow_right₀ (by decide) hb
        rw [if_pos hbit, hone, one_mul, if_neg (by omega), if_neg (by omega)]
    · rfl

/-- Where a carry comes up there is room for it: the remaining number is odd, so that it stays below
the power of two that bounds it. -/
theorem carry_room (hodd : U % 2 = 1) (hbit : U / 16 % 2 = 1) (hroom : U * 2 ^ i ≤ 2 ^ 255) :
    (U / 16 + 1) * 2 ^ (i + 4) ≤ 2 ^ 255 ∧ i + 4 ≤ 255 := by
  have hi : i + 4 ≤ 255 := by
    by_contra hgt
    have hpow : 2 ^ 256 ≤ 2 ^ (i + 4) := Nat.pow_le_pow_right (by decide) (by omega)
    have hmul : 16 * 2 ^ i ≤ U * 2 ^ i := Nat.mul_le_mul_right _ (by omega)
    rw [pow_add] at hpow
    omega
  obtain ⟨m, hm⟩ := Nat.exists_eq_add_of_le hi
  have hpow : 2 ^ 255 = 16 * 2 ^ m * 2 ^ i := by
    rw [hm, pow_add, pow_add]
    ring
  rw [hpow] at hroom
  have hle : U ≤ 16 * 2 ^ m := Nat.le_of_mul_le_mul_right hroom (Nat.two_pow_pos i)
  have hquot : U / 16 + 1 ≤ 2 ^ m := by omega
  refine ⟨?_, hi⟩
  calc (U / 16 + 1) * 2 ^ (i + 4) ≤ 2 ^ m * 2 ^ (i + 4) := Nat.mul_le_mul_right _ hquot
    _ = 2 ^ 255 := by rw [hpow, pow_add]; ring

theorem Bits.zero_or_one (h : Bits r k U) {j : ℕ} (hj : k ≤ j) : r j = 0 ∨ r j = 1 := by
  rw [h j hj]
  omega

theorem window_last {n : ℕ} (hodd : U % 2 = 1) (hib : 256 ≤ i + b) (hb : b ≤ 4)
    (hroom : U * 2 ^ i ≤ 2 ^ 255) (h : Window r₀ r i b U) :
    ∃ U', Done r₀ (slideInner i n b r) i U U' := by
  have hstop : slideInner i n b r = r := by
    cases n with
    | zero => rfl
    | succ n => rw [slideInner, if_neg (by omega)]
  have hsmall : U < 2 ^ b := by
    have hpow : 2 ^ 256 ≤ 2 ^ b * 2 ^ i := by
      rw [← pow_add]
      exact Nat.pow_le_pow_right (by decide) (by omega)
    refine Nat.lt_of_mul_lt_mul_right (lt_of_le_of_lt hroom (lt_of_lt_of_le ?_ hpow) : U * 2 ^ i < 2 ^ b * 2 ^ i)
    exact Nat.pow_lt_pow_right (by decide) (by decide)
  have hlt : 2 ^ b ≤ 2 ^ 4 := Nat.pow_le_pow_right (by decide) hb
  have hdigit : r i = U := by rw [h.digit, Nat.mod_eq_of_lt hsmall]
  have hbits := h.bits
  rw [Nat.div_eq_of_lt hsmall] at hbits
  rw [hstop]
  refine ⟨0, by omega, by omega, by omega, by omega, ?_, by rw [Nat.zero_mul]; exact Nat.zero_le _, h.below⟩
  apply Bits.of_zero
  intro j hj
  by_cases hjb : j < i + b
  · exact h.zeros j hj hjb
  · rw [hbits j (by omega), Nat.zero_div]
    rfl

/-- The fourth round takes sixteen away and carries, where the bit above the window is set. -/
theorem window_full {n : ℕ} (hodd : U % 2 = 1) (hib : i + 4 < 256) (hroom : U * 2 ^ i ≤ 2 ^ 255)
    (h : Window r₀ r i 4 U) : ∃ U', Done r₀ (slideInner i (n + 1) 4 r) i U U' := by
  have hdigit := h.digit
  have hhead := h.bits.head
  have hmod : U % 2 ^ 4 = U % 16 := rfl
  have hdiv : U / 2 ^ 4 = U / 16 := rfl
  rw [hmod] at hdigit
  rw [hdiv] at hhead
  have hbelow : ∀ W, U = U % 16 + 16 * W → 2 ^ 3 * W * 2 ^ (i + 1) ≤ 2 ^ 255 := by
    intro W hW
    refine le_trans (le_of_eq ?_) ((Nat.mul_le_mul_right _ (by omega : 16 * W ≤ U)).trans hroom)
    rw [pow_succ]
    ring
  rw [slideInner, if_pos hib]
  by_cases hbit : r (i + 4) = 0
  · rw [if_neg (not_not.mpr hbit), slideInner_late (by decide) (by omega) (by omega)
      fun j hj => h.bits.zero_or_one (by omega)]
    exact ⟨2 ^ 3 * (U / 16), by omega, by omega, by omega, by push_cast; omega,
      Bits.shift (fun j hj hj' => h.zeros j hj (by omega)) h.bits, hbelow _ (by omega), h.below⟩
  · have hset : U / 16 % 2 = 1 := by omega
    obtain ⟨hcarry, hi⟩ := carry_room hodd hset hroom
    have hone : r (i + 4) = 1 := by omega
    have hfit : U / 16 + 1 < 2 ^ (256 - (i + 4)) := by
      have hpow : 2 ^ 256 = 2 ^ (256 - (i + 4)) * 2 ^ (i + 4) := by rw [← pow_add, Nat.sub_add_cancel hib.le]
      refine Nat.lt_of_mul_lt_mul_right (lt_of_le_of_lt hcarry ?_ :
        (U / 16 + 1) * 2 ^ (i + 4) < 2 ^ (256 - (i + 4)) * 2 ^ (i + 4))
      rw [← hpow]
      exact Nat.pow_lt_pow_right (by decide) (by decide)
    obtain ⟨hbits, hlow⟩ := slideCarry_spec (n := 256 - (i + 4)) (r := Function.update r i (r i - 16))
      (h.bits.congr fun j hj => Function.update_of_ne (by omega) _ _) hfit
    have hdig : slideCarry (256 - (i + 4)) (i + 4) (Function.update r i (r i - 16)) i = r i - 16 := by
      rw [hlow i (by omega), Function.update_self]
    have hrest (j : ℕ) (hj : j < i + 4) (hji : j ≠ i) :
        slideCarry (256 - (i + 4)) (i + 4) (Function.update r i (r i - 16)) j = r j := by
      rw [hlow j hj, Function.update_of_ne hji]
    rw [if_pos hbit, hone, one_mul, show (2 : ℤ) ^ 4 = 16 from rfl, if_neg (by omega), if_pos (by omega)]
    generalize slideCarry (256 - (i + 4)) (i + 4) (Function.update r i (r i - 16)) = r' at *
    rw [slideInner_late (by decide) (by omega) (by omega) fun j hj => hbits.zero_or_one (by omega)]
    refine ⟨2 ^ 3 * (U / 16 + 1), by omega, by omega, by omega, by push_cast; omega,
      Bits.shift (fun j hj hj' => ?_) hbits, ?_, fun j hj => ?_⟩
    · rw [hrest j (by omega) (by omega)]
      exact h.zeros j hj (by omega)
    · refine le_trans (le_of_eq ?_) hcarry
      rw [pow_add, pow_add]
      ring
    · rw [hrest j (by omega) (by omega)]
      exact h.below j hj

theorem window_rounds {n : ℕ} (hodd : U % 2 = 1) (hroom : U * 2 ^ i ≤ 2 ^ 255) {m : ℕ} (hb : b + m = 4)
    (hpos : 0 < b) (h : Window r₀ r i b U) : ∃ U', Done r₀ (slideInner i (n + 1 + m) b r) i U U' := by
  induction m generalizing b r with
  | zero =>
    obtain rfl : b = 4 := hb
    by_cases hib : i + 4 < 256
    · exact window_full hodd hib hroom h
    · exact window_last hodd (by omega) (by omega) hroom h
  | succ m ih =>
    by_cases hib : i + b < 256
    · obtain ⟨r', hr', h'⟩ := @window_step r r₀ i b U (n + 1 + m) (by omega) hib hpos h
      rw [← Nat.add_assoc, hr']
      exact ih (by omega) (by omega) h'
    · exact window_last hodd (by omega) (by omega) hroom h

end Window

/-- What holds after the places below `n`. -/
structure Slid (a : ℕ) (r : ℕ → ℤ) (n U : ℕ) : Prop where
  bits : Bits r n U
  room : U * 2 ^ n ≤ 2 ^ 255
  value : ∑ j ∈ Finset.range n, r j * 2 ^ j + U * 2 ^ n = a
  digits : ∀ j < n, r j = 0 ∨ r j % 2 = 1 ∧ -15 ≤ r j ∧ r j ≤ 15

theorem slideStep_spec {a n U : ℕ} {r : ℕ → ℤ} (h : Slid a r n U) :
    ∃ U', Slid a (slideStep r n) (n + 1) U' := by
  have hhead := h.bits.head
  have hvalue := h.value
  unfold slideStep
  by_cases hn : r n = 0
  · rw [if_neg (not_not.mpr hn)]
    refine ⟨U / 2, h.bits.tail, ?_, ?_, ?_⟩
    · have hroom := h.room
      rw [pow_succ, show U / 2 * (2 ^ n * 2) = U / 2 * 2 * 2 ^ n by ring]
      exact (Nat.mul_le_mul_right _ (by omega)).trans hroom
    · rw [Finset.sum_range_succ, hn, zero_mul, add_zero, ← hvalue]
      have hU : ((U / 2 : ℕ) : ℤ) * 2 = U := by omega
      rw [pow_succ, ← hU]
      ring
    · intro j hj
      by_cases hjn : j = n
      · exact .inl (hjn ▸ hn)
      · exact h.digits j (by omega)
  · rw [if_pos hn]
    have hodd : U % 2 = 1 := by omega
    have hwindow : Window r r n 1 U := by
      refine ⟨by rw [hhead, pow_one], fun j hj hj' => by omega, ?_, fun _ _ => rfl⟩
      rw [pow_one]
      exact h.bits.tail
    obtain ⟨U', hdone⟩ := @window_rounds r r n 1 U 2 hodd h.room 3 rfl one_pos hwindow
    refine ⟨U', hdone.bits, hdone.room, ?_, ?_⟩
    · have hsum : ∑ j ∈ Finset.range n, slideInner n 6 1 r j * 2 ^ j =
          ∑ j ∈ Finset.range n, r j * 2 ^ j :=
        Finset.sum_congr rfl fun j hj => by rw [hdone.below j (Finset.mem_range.mp hj)]
      rw [Finset.sum_range_succ, hsum, ← hvalue, hdone.value, pow_succ]
      ring
    · intro j hj
      by_cases hjn : j = n
      · exact .inr ⟨hjn ▸ hdone.odd, hjn ▸ hdone.lower, hjn ▸ hdone.upper⟩
      · rw [hdone.below j (by omega)]
        exact h.digits j (by omega)

theorem slideBits_eq (a : Blob) : Bits (slideBits a) 0 (podValue a) := by
  intro j _
  have hbyte := ScalarLimbs.byteAt_eq a (j >>> 3)
  have hj : 8 * (j / 8) + j % 8 = j := Nat.div_add_mod j 8
  have hand : j &&& 7 = j % 8 := Nat.and_two_pow_sub_one_eq_mod j 3
  unfold ScalarLimbs.byteAt at hbyte
  unfold slideBits
  rw [hbyte, hand, Nat.and_one_is_mod, Nat.shiftRight_eq_div_pow, Nat.shiftRight_eq_div_pow, pow_bytes,
    Nat.sub_zero]
  congr 1
  have hsplit : podValue a / 2 ^ j = podValue a / 2 ^ (8 * (j / 2 ^ 3)) / 2 ^ (j % 8) := by
    rw [Nat.div_div_eq_div_mul, ← pow_add]
    congr 2
    exact hj.symm
  rw [hsplit]
  exact ScalarLimbs.mod_pow_div_mod (b := 8) (w := 1) (by omega)

/-- The digits of `slide`: zero or odd and at most fifteen, and worth the scalar. -/
theorem slide_spec {a : Blob} (h : podValue a < 2 ^ 255) : (slide a).length = 256 ∧
    value 2 (slide a) = podValue a ∧ ∀ d ∈ slide a, d = 0 ∨ d % 2 = 1 ∧ -15 ≤ d ∧ d ≤ 15 := by
  have hrun (n : ℕ) : ∃ U, Slid (podValue a) ((List.range n).foldl slideStep (slideBits a)) n U := by
    induction n with
    | zero =>
      refine ⟨podValue a, slideBits_eq a, by rw [pow_zero, Nat.mul_one]; exact h.le, ?_,
        fun j hj => absurd hj (Nat.not_lt_zero j)⟩
      rw [Finset.sum_range_zero, pow_zero, mul_one, zero_add]
    | succ n ih =>
      obtain ⟨U, hU⟩ := ih
      rw [List.range_succ, List.foldl_append]
      exact slideStep_spec hU
  obtain ⟨U, hU⟩ := hrun 256
  have hroom := hU.room
  obtain rfl : U = 0 := by omega
  have hvalue := hU.value
  rw [Nat.cast_zero, zero_mul, add_zero] at hvalue
  unfold slide
  refine ⟨by rw [List.length_map, List.length_range], ?_, ?_⟩
  · rw [value_eq_sum, ← hvalue, List.length_map, List.length_range]
    apply Finset.sum_congr rfl
    intro j hj
    rw [List.getD_eq_getElem?_getD, List.getElem?_map, List.getElem?_range (Finset.mem_range.mp hj),
      Option.map_some, Option.getD_some]
  · intro d hd
    obtain ⟨j, hj, rfl⟩ := List.mem_map.mp hd
    exact hU.digits j (List.mem_range.mp hj)

section Loops

variable {G : Type} [AddCommGroup G]

/-- `A, 3A, 5A, ..., 15A`. -/
def geDsmPrecomp (A : G) : List G := List.iterate (fun u => A + A + u) A 8

/-- `ge_Bi`, as `crypto-ops-data.c` lists it: `B, 3B, 5B, ..., 15B`. -/
def geBi (B : G) : List G := (List.range 8).map fun i => (2 * i + 1) • B

def addDigit (table : List G) (t : G) (d : ℤ) : G :=
  if 0 < d then t + table.getD (d / 2).toNat 0
  else if d < 0 then t - table.getD (-d / 2).toNat 0
  else t

def dsmStep (Ai Bi : List G) (d : ℤ × ℤ) (r : G) : G := addDigit Bi (addDigit Ai (r + r) d.1) d.2

def geDoubleScalarmultPrecompVartime (a : Blob) (A : G) (b : Blob) (Bi : List G) : G :=
  (((slide a).zip (slide b)).reverse.dropWhile fun d => decide (d.1 = 0) && decide (d.2 = 0)).foldl
    (fun r d => dsmStep (geDsmPrecomp A) Bi d r) 0

def geDoubleScalarmultBaseVartime (B : G) (a : Blob) (A : G) (b : Blob) : G :=
  geDoubleScalarmultPrecompVartime a A b (geBi B)

def equal (b c : BitVec 8) : BitVec 8 := (((b ^^^ c).setWidth 32 - 1) >>> 31).setWidth 8

def negative (b : BitVec 8) : BitVec 8 := (b.signExtend 64 >>> 63).setWidth 8

def babs (b : BitVec 8) : BitVec 8 :=
  (b.signExtend 32 - ((-(negative b).setWidth 32) &&& b.signExtend 32) <<< 1).setWidth 8

/-- `ge_precomp_cmov` and `ge_cached_cmov`. -/
def cmov (t u : G) (b : BitVec 8) : G := if b = 1 then u else t

/-- `select`, which `ge_scalarmult` has inline: the multiple of a digit by conditional moves. -/
def select (table : List G) (b : BitVec 8) : G :=
  let t := (List.range 8).foldl (fun t j => cmov t (table.getD j 0) (equal (babs b) (BitVec.ofNat 8 (j + 1)))) 0
  cmov t (-t) (negative b)

/-- The digits `e` of `ge_scalarmult`, with the carry. -/
def recode : Blob → ℤ → List ℤ
  | [], _ => []
  | [a], carry =>
      let carry := carry + a.toNat
      let carry2 := (carry + 8) >>> (4 : ℕ)
      [carry - carry2 <<< (4 : ℕ), carry2]
  | a :: l, carry =>
      let carry := carry + a.toNat
      let carry2 := (carry + 8) >>> (4 : ℕ)
      let carry' := (carry2 + 8) >>> (4 : ℕ)
      (carry - carry2 <<< (4 : ℕ)) :: (carry2 - carry' <<< (4 : ℕ)) :: recode l carry'

def geScalarmult (a : Blob) (A : G) : G :=
  let Ai := List.iterate (A + ·) A 8
  (recode a 0).foldr (fun b r =>
    let r := r + r
    let r := r + r
    let r := r + r
    let u := r + r
    u + select Ai (BitVec.ofInt 8 b)) 0

/-- `ge_base`, as `crypto-ops-data.c` lists it: `base[i][j] = (j+1)*256^i*B`. -/
def geBase (B : G) (i : ℕ) : List G := (List.range 8).map fun j => ((j + 1) * 256 ^ i) • B

/-- The four-bit digits of `ge_scalarmult_base`. -/
def nibbles (a : Blob) : List ℤ :=
  a.flatMap fun c => [((c.toNat >>> 0 &&& 15 : ℕ) : ℤ), ((c.toNat >>> 4 &&& 15 : ℕ) : ℤ)]

/-- The carries that bring them between -8 and 8. -/
def carryNibbles : List ℤ → ℤ → List ℤ
  | [], _ => []
  | [e], carry => [e + carry]
  | e :: l, carry =>
      let e := e + carry
      let carry := (e + 8) >>> (4 : ℕ)
      (e - carry <<< (4 : ℕ)) :: carryNibbles l carry

def geScalarmultBase (B : G) (a : Blob) : G :=
  let e := carryNibbles (nibbles a) 0
  let h := (List.range 32).foldl (fun h j =>
    h + select (geBase B j) (BitVec.ofInt 8 (e.getD (2 * j + 1) 0))) 0
  let s := h + h
  let s := s + s
  let s := s + s
  let h := s + s
  (List.range 32).foldl (fun h j => h + select (geBase B j) (BitVec.ofInt 8 (e.getD (2 * j) 0))) h

theorem iterate_getD {f : G → G} {A : G} {n i : ℕ} (hi : i < n) :
    (List.iterate f A n).getD i 0 = f^[i] A := by
  rw [List.getD_eq_getElem?_getD, List.getElem?_iterate _ _ _ _ hi]
  rfl

theorem iterate_add (A P : G) (n : ℕ) : (fun u => P + u)^[n] A = A + n • P := by
  induction n with
  | zero => simp
  | succ n ih =>
    rw [Function.iterate_succ_apply', ih, succ_nsmul]
    abel

theorem geDsmPrecomp_getD (A : G) {i : ℕ} (hi : i < 8) :
    (geDsmPrecomp A).getD i 0 = (2 * i + 1) • A := by
  unfold geDsmPrecomp
  rw [iterate_getD hi, iterate_add, ← two_nsmul, ← mul_nsmul', add_nsmul, one_nsmul, Nat.mul_comm,
    add_comm]

theorem geBi_getD (B : G) {i : ℕ} (hi : i < 8) : (geBi B).getD i 0 = (2 * i + 1) • B := by
  unfold geBi
  rw [List.getD_eq_getElem?_getD, List.getElem?_map, List.getElem?_range hi]
  rfl

/-- The tables hold the odd multiples, of which a digit takes its own. -/
theorem addDigit_eq {table : List G} {P : G} (htable : ∀ i < 8, table.getD i 0 = (2 * i + 1) • P) (t : G)
    {d : ℤ} (hd : d = 0 ∨ d % 2 = 1 ∧ -15 ≤ d ∧ d ≤ 15) : addDigit table t d = t + d • P := by
  unfold addDigit
  split
  · next hpos =>
    have hval : ((2 * (d / 2).toNat + 1 : ℕ) : ℤ) = d := by omega
    rw [htable _ (by omega), ← natCast_zsmul, hval]
  · split
    · next hneg =>
      have hval : ((2 * (-d / 2).toNat + 1 : ℕ) : ℤ) = -d := by omega
      rw [htable _ (by omega), ← natCast_zsmul, hval, neg_zsmul, sub_neg_eq_add]
    · next hpos hneg =>
      rw [show d = 0 by omega, zero_smul, add_zero]

theorem double_scalarmult_eq {a b : Blob} (ha : podValue a < 2 ^ 255) (hb : podValue b < 2 ^ 255)
    {Bi : List G} {B : G} (hBi : ∀ i < 8, Bi.getD i 0 = (2 * i + 1) • B) (A : G) :
    geDoubleScalarmultPrecompVartime a A b Bi = podValue a • A + podValue b • B := by
  obtain ⟨halen, havalue, hadigits⟩ := slide_spec ha
  obtain ⟨hblen, hbvalue, hbdigits⟩ := slide_spec hb
  have hfst : ((slide a).zip (slide b)).map Prod.fst = slide a :=
    List.map_fst_zip (by rw [halen, hblen])
  have hsnd : ((slide a).zip (slide b)).map Prod.snd = slide b :=
    List.map_snd_zip (by rw [halen, hblen])
  unfold geDoubleScalarmultPrecompVartime
  rw [foldl_dropWhile, List.foldl_reverse, foldr_pair_eq (b := 2) (P := A) (Q := B), hfst, hsnd, havalue,
    hbvalue, natCast_zsmul, natCast_zsmul]
  · intro d hd r
    have hd1 := hadigits d.1 (hfst ▸ List.mem_map_of_mem hd)
    have hd2 := hbdigits d.2 (hsnd ▸ List.mem_map_of_mem hd)
    unfold dsmStep
    rw [addDigit_eq hBi _ hd2, addDigit_eq (fun i hi => geDsmPrecomp_getD A hi) _ hd1, two_smul, add_assoc]
  · intro d hd
    rw [Bool.and_eq_true, decide_eq_true_iff, decide_eq_true_iff] at hd
    unfold dsmStep addDigit
    simp [hd.1, hd.2]

theorem equal_eq : ∀ x : BitVec 8, ((x.setWidth 32 - 1) >>> 31).setWidth 8 = if x = 0 then 1#8 else 0#8 := by
  decide +kernel

theorem negative_babs : ∀ d ∈ (List.range 17).map (fun n : ℕ => (n : ℤ) - 8),
    (negative (BitVec.ofInt 8 d) = if d < 0 then 1 else 0) ∧
      babs (BitVec.ofInt 8 d) = BitVec.ofNat 8 d.natAbs := by
  decide +kernel

theorem mem_digits {d : ℤ} (hlow : -8 ≤ d) (hhigh : d ≤ 8) :
    d ∈ (List.range 17).map (fun n : ℕ => (n : ℤ) - 8) :=
  List.mem_map.mpr ⟨(d + 8).toNat, List.mem_range.mpr (show (d + 8).toNat < 17 by omega),
    show (((d + 8).toNat : ℕ) : ℤ) - 8 = d by omega⟩

theorem equal_ofNat {n j : ℕ} (hn : n < 256) (hj : j < 256) :
    equal (BitVec.ofNat 8 n) (BitVec.ofNat 8 j) = if n = j then 1 else 0 := by
  have hiff : BitVec.ofNat 8 n ^^^ BitVec.ofNat 8 j = 0#8 ↔ n = j := by
    rw [BitVec.xor_eq_zero_iff, ← BitVec.toNat_inj, BitVec.toNat_ofNat, BitVec.toNat_ofNat,
      Nat.mod_eq_of_lt hn, Nat.mod_eq_of_lt hj]
  unfold equal
  rw [equal_eq]
  simp only [BitVec.ofNat_eq_ofNat, hiff]

theorem cmov_table (table : List G) {n m : ℕ} (hn : n < 256) (hm : m < 255) :
    (List.range m).foldl
      (fun t j => cmov t (table.getD j 0) (equal (BitVec.ofNat 8 n) (BitVec.ofNat 8 (j + 1)))) 0 =
      if 0 < n ∧ n ≤ m then table.getD (n - 1) 0 else 0 := by
  induction m with
  | zero =>
    rw [if_neg (by omega)]
    rfl
  | succ m ih =>
    rw [List.range_succ, List.foldl_append, ih (by omega), List.foldl_cons, List.foldl_nil,
      equal_ofNat hn (by omega)]
    unfold cmov
    by_cases hnm : n = m + 1
    · rw [if_pos hnm, if_pos rfl, if_pos (by omega), hnm, Nat.add_sub_cancel]
    · rw [if_neg hnm, if_neg (by decide)]
      by_cases hle : 0 < n ∧ n ≤ m
      · rw [if_pos hle, if_pos (by omega)]
      · rw [if_neg hle, if_neg (by omega)]

theorem select_eq {table : List G} {P : G} (htable : ∀ i < 8, table.getD i 0 = (i + 1) • P) {d : ℤ}
    (hlow : -8 ≤ d) (hhigh : d ≤ 8) : select table (BitVec.ofInt 8 d) = d • P := by
  obtain ⟨hneg, habs⟩ := negative_babs d (mem_digits hlow hhigh)
  unfold select
  dsimp only
  rw [habs, cmov_table table (by omega) (by decide), hneg]
  have hentry : (if 0 < d.natAbs ∧ d.natAbs ≤ 8 then table.getD (d.natAbs - 1) 0 else 0) =
      (d.natAbs : ℤ) • P := by
    split
    · next h => rw [htable _ (by omega), natCast_zsmul, Nat.sub_add_cancel h.1]
    · next h => rw [show d.natAbs = 0 by omega, Nat.cast_zero, zero_smul]
  rw [hentry]
  unfold cmov
  by_cases hd : d < 0
  · rw [if_pos hd, if_pos rfl, ← neg_zsmul]
    congr 1
    omega
  · rw [if_neg hd, if_neg (by decide)]
    congr 1
    omega

theorem shift_four (c : ℤ) : c >>> (4 : ℕ) = c / 16 := by
  rw [Int.shiftRight_eq_div_pow]
  rfl

theorem shiftLeft_four (c : ℤ) : c <<< (4 : ℕ) = c * 16 := by
  rw [Int.shiftLeft_eq]
  rfl

/-- The digits of `ge_scalarmult` for bytes of which the last is at most 127. -/
theorem recode_spec {l : Blob} (hl : l ≠ []) (hlast : l.getLast hl < 128) {carry : ℤ} (h0 : 0 ≤ carry)
    (h1 : carry ≤ 1) : value 16 (recode l carry) = podValue l + carry ∧
      ∀ d ∈ recode l carry, -8 ≤ d ∧ d ≤ 8 := by
  induction l generalizing carry with
  | nil => exact absurd rfl hl
  | cons a l ih =>
    have ha := a.toNat_lt
    cases l with
    | nil =>
      have hsmall : a.toNat < 128 := hlast
      simp only [recode, shift_four, shiftLeft_four, value, podValue, List.forall_mem_cons]
      refine ⟨by push_cast; ring, by omega, by omega, fun _ h => absurd h List.not_mem_nil⟩
    | cons b l =>
      have hcarry : 0 ≤ ((carry + a.toNat + 8) / 16 + 8) / 16 ∧
          ((carry + a.toNat + 8) / 16 + 8) / 16 ≤ 1 := by omega
      obtain ⟨hval, hdigits⟩ := ih (List.cons_ne_nil _ _) hlast hcarry.1 hcarry.2
      rw [recode]
      · simp only [shift_four, shiftLeft_four, value, List.forall_mem_cons]
        refine ⟨?_, by omega, by omega, hdigits⟩
        rw [hval, podValue.eq_2 a]
        push_cast
        ring
      · exact List.cons_ne_nil _ _

theorem ge_scalarmult_eq {a : Blob} (hlen : a.length = 32) (ha : podValue a < 2 ^ 255) (A : G) :
    geScalarmult a A = podValue a • A := by
  have hne : a ≠ [] := by
    rintro rfl
    cases hlen
  have hlast : a.getLast hne < 128 := by
    have hget := ScalarLimbs.byteAt_eq a 31
    have hbyte : ScalarLimbs.byteAt a 31 = (a.getLast hne).toNat := by
      unfold ScalarLimbs.byteAt
      rw [List.getLast_eq_getElem, List.getD_eq_getElem?_getD, List.getElem?_eq_getElem (by omega)]
      simp only [hlen, Option.getD_some, Nat.reduceSub]
    rw [UInt8.lt_iff_toNat_lt, ← hbyte, hget]
    have hpow : (256 : ℕ) ^ 31 * 128 = 2 ^ 255 := by norm_num
    have hdiv : podValue a / 256 ^ 31 < 128 := by
      rw [Nat.div_lt_iff_lt_mul (by positivity), Nat.mul_comm, hpow]
      exact ha
    exact (Nat.mod_le _ _).trans_lt hdiv
  obtain ⟨hval, hdigits⟩ := recode_spec hne hlast le_rfl zero_le_one
  have htable : ∀ i < 8, (List.iterate (A + ·) A 8).getD i 0 = (i + 1) • A := by
    intro i hi
    rw [iterate_getD hi, iterate_add, add_smul, one_smul, add_comm]
  unfold geScalarmult
  dsimp only
  rw [foldr_eq (b := 16) (P := A), hval, add_zero, natCast_zsmul]
  intro d hd r
  obtain ⟨hlow, hhigh⟩ := hdigits d hd
  rw [select_eq htable hlow hhigh]
  congr 1
  simp only [← two_nsmul, ← mul_nsmul']
  exact (natCast_zsmul r 16).symm

theorem nibbles_spec (a : Blob) : (nibbles a).length = 2 * a.length ∧ value 16 (nibbles a) = podValue a ∧
    ∀ d ∈ nibbles a, 0 ≤ d ∧ d ≤ 15 := by
  induction a with
  | nil => exact ⟨rfl, rfl, fun d hd => absurd hd List.not_mem_nil⟩
  | cons c a ih =>
    obtain ⟨hlen, hval, hdigits⟩ := ih
    have hc := c.toNat_lt
    have hlow : c.toNat >>> 0 &&& 15 = c.toNat % 16 := Nat.and_two_pow_sub_one_eq_mod _ 4
    have hhigh : c.toNat >>> 4 &&& 15 = c.toNat / 16 % 16 := by
      rw [Nat.shiftRight_eq_div_pow]
      exact Nat.and_two_pow_sub_one_eq_mod _ 4
    unfold nibbles at *
    rw [List.flatMap_cons, hlow, hhigh]
    refine ⟨?_, ?_, ?_⟩
    · rw [List.length_append, hlen, List.length_cons, List.length_cons, List.length_cons, List.length_nil]
      omega
    · rw [List.cons_append, List.cons_append, List.nil_append, value, value, hval, podValue]
      push_cast
      omega
    · simp only [List.cons_append, List.nil_append, List.forall_mem_cons]
      exact ⟨by omega, by omega, hdigits⟩

theorem carryNibbles_spec {l : List ℤ} (hl : ∀ d ∈ l, 0 ≤ d ∧ d ≤ 15) (hlast : ∀ d ∈ l.getLast?, d ≤ 7)
    {carry : ℤ} (h0 : 0 ≤ carry) (h1 : carry ≤ 1) (hne : l ≠ []) :
    (carryNibbles l carry).length = l.length ∧ value 16 (carryNibbles l carry) = value 16 l + carry ∧
      ∀ d ∈ carryNibbles l carry, -8 ≤ d ∧ d ≤ 8 := by
  induction l generalizing carry with
  | nil => exact absurd rfl hne
  | cons e l ih =>
    obtain ⟨⟨he0, he1⟩, hl⟩ := List.forall_mem_cons.mp hl
    cases l with
    | nil =>
      have he7 := hlast e rfl
      simp only [carryNibbles, value, List.forall_mem_cons]
      exact ⟨rfl, by ring, by omega, fun _ h => absurd h List.not_mem_nil⟩
    | cons f l =>
      have hcarry : 0 ≤ (e + carry + 8) / 16 ∧ (e + carry + 8) / 16 ≤ 1 := by omega
      obtain ⟨hlen, hval, hdigits⟩ := ih hl (by rwa [List.getLast?_cons_cons] at hlast) hcarry.1
        hcarry.2 (List.cons_ne_nil _ _)
      rw [carryNibbles]
      · simp only [shift_four, shiftLeft_four, List.forall_mem_cons, List.length_cons] at hlen ⊢
        refine ⟨by rw [hlen], ?_, by omega, hdigits⟩
        rw [value, hval, value.eq_2 16 e]
        ring
      · exact List.cons_ne_nil _ _

theorem nibbles_last {a : Blob} (hlen : a.length = 32) (ha : podValue a < 2 ^ 255) :
    ∀ d ∈ (nibbles a).getLast?, d ≤ 7 := by
  obtain ⟨l, c, rfl⟩ : ∃ l c, a = l ++ [c] :=
    ⟨a.dropLast, _, (List.dropLast_append_getLast (List.ne_nil_of_length_eq_add_one hlen)).symm⟩
  have hl : l.length = 31 := by
    rw [List.length_append, List.length_singleton] at hlen
    omega
  have hc := c.toNat_lt
  have hval : podValue (l ++ [c]) = podValue l + 256 ^ 31 * c.toNat := by
    rw [← hl]
    clear ha hlen hl
    induction l with
    | nil => simp [podValue]
    | cons x l ih =>
      rw [List.cons_append, podValue, ih, podValue, List.length_cons, pow_succ]
      ring
  have hpow : (2 : ℕ) ^ 255 = 256 ^ 31 * 128 := by norm_num
  rw [hval, hpow] at ha
  have hsmall : c.toNat < 128 := Nat.lt_of_mul_lt_mul_left (lt_of_le_of_lt (Nat.le_add_left _ _) ha)
  have hhigh : c.toNat >>> 4 &&& 15 = c.toNat / 16 % 16 := by
    rw [Nat.shiftRight_eq_div_pow]
    exact Nat.and_two_pow_sub_one_eq_mod _ 4
  unfold nibbles
  intro d hd
  rw [List.flatMap_append, List.flatMap_singleton, List.getLast?_append_of_ne_nil _ (List.cons_ne_nil _ _)] at hd
  simp only [List.getLast?_cons_cons, List.getLast?_singleton, Option.mem_def, Option.some.injEq, hhigh] at hd
  omega

theorem ge_scalarmult_base_eq (B : G) {a : Blob} (hlen : a.length = 32) (ha : podValue a < 2 ^ 255) :
    geScalarmultBase B a = podValue a • B := by
  obtain ⟨hnlen, hnval, hndigits⟩ := nibbles_spec a
  have hne : nibbles a ≠ [] := by
    intro h
    rw [h, hlen] at hnlen
    cases hnlen
  obtain ⟨helen, heval, hedigits⟩ := carryNibbles_spec hndigits (nibbles_last hlen ha) le_rfl
    zero_le_one hne
  have hbound (j : ℕ) : -8 ≤ (carryNibbles (nibbles a) 0).getD j 0 ∧
      (carryNibbles (nibbles a) 0).getD j 0 ≤ 8 := by
    rw [List.getD_eq_getElem?_getD]
    cases hget : (carryNibbles (nibbles a) 0)[j]? with
    | none => decide
    | some d => exact hedigits d (List.mem_of_getElem? hget)
  have htable (j : ℕ) : ∀ i < 8, (geBase B j).getD i 0 = (i + 1) • ((16 * 16 : ℤ) ^ j • B) := by
    intro i hi
    have hpow : (16 * 16 : ℤ) ^ j = ((256 ^ j : ℕ) : ℤ) := by
      push_cast
      norm_num
    unfold geBase
    rw [List.getD_eq_getElem?_getD, List.getElem?_map, List.getElem?_range hi, hpow, natCast_zsmul,
      ← mul_nsmul']
    rfl
  have hselect (j k : ℕ) : select (geBase B j) (BitVec.ofInt 8 ((carryNibbles (nibbles a) 0).getD k 0)) =
      (carryNibbles (nibbles a) 0).getD k 0 • ((16 * 16 : ℤ) ^ j • B) :=
    select_eq (htable j) (hbound k).1 (hbound k).2
  rw [hnlen, hlen] at helen
  have hsum := even_odd_smul 16 B (l := carryNibbles (nibbles a) 0) (n := 32) helen
  have hsixteen (h : G) : h + h + (h + h) + (h + h + (h + h)) + (h + h + (h + h) + (h + h + (h + h))) =
      (16 : ℤ) • h := by
    simp only [← two_nsmul, ← mul_nsmul']
    exact (natCast_zsmul h 16).symm
  unfold geScalarmultBase
  simp only [hselect, foldl_add_range, zero_add]
  rw [hsixteen, hsum, heval, hnval, add_zero, natCast_zsmul]

end Loops

/-- On all scalars below `2 ^ 255` the digit loops of `crypto-ops.c` give the multiples. -/
theorem ge_multiples {G : Type} [AddCommGroup G] (A B : G) {a b : BitVec 256} (ha : a.toNat < 2 ^ 255)
    (hb : b.toNat < 2 ^ 255) :
    geScalarmult (hashBytes a) A = a.toNat • A ∧ geScalarmultBase B (hashBytes a) = a.toNat • B ∧
      geDoubleScalarmultBaseVartime B (hashBytes a) A (hashBytes b) = a.toNat • A + b.toNat • B ∧
      geDoubleScalarmultPrecompVartime (hashBytes a) A (hashBytes b) (geDsmPrecomp B) =
        a.toNat • A + b.toNat • B := by
  obtain ⟨haval, halen⟩ := ScalarLimbs.scalar_bytes a
  obtain ⟨hbval, -⟩ := ScalarLimbs.scalar_bytes b
  rw [← haval] at ha ⊢
  rw [← hbval] at hb ⊢
  exact ⟨ge_scalarmult_eq halen ha A, ge_scalarmult_base_eq B halen ha,
    double_scalarmult_eq ha hb (fun i hi => geBi_getD B hi) A,
    double_scalarmult_eq ha hb (fun i hi => geDsmPrecomp_getD B hi) A⟩

end ScalarMult

/-- The multiples of `CryptoOps` may be those of the code. -/
def CryptoOps.withCode {G : Type} [AddCommGroup G] (C : CryptoOps G) : CryptoOps G :=
  { C with
    scalarmult := fun a P => ScalarMult.geScalarmult (hashBytes a) P
    scalarmult_eq := fun a P ha => by
      obtain ⟨hval, hlen⟩ := ScalarLimbs.scalar_bytes a
      rw [← hval] at ha ⊢
      exact ScalarMult.ge_scalarmult_eq hlen ha P }

namespace ScalarMult

theorem ge_multiples_sample : geScalarmult (hashBytes 13) (3 : ℤ) = 13 • 3 ∧
    geScalarmultBase (5 : ℤ) (hashBytes 13) = 13 • 5 ∧
    geDoubleScalarmultBaseVartime (5 : ℤ) (hashBytes 13) 3 (hashBytes 77) = 13 • 3 + 77 • 5 ∧
    geDoubleScalarmultPrecompVartime (hashBytes 13) (3 : ℤ) (hashBytes 77) (geDsmPrecomp 5) =
      13 • 3 + 77 • 5 ∧
    CryptoOps.sampleOps.withCode.scalarmultBase 13 = geScalarmult (hashBytes 13) CryptoOps.sampleOps.base := by
  obtain ⟨hmult, hbase, hvartime, hprecomp⟩ := ge_multiples (3 : ℤ) 5 (a := 13) (b := 77) (by decide) (by decide)
  exact ⟨hmult, hbase, hvartime, hprecomp, rfl⟩

end ScalarMult

end Boolberry
