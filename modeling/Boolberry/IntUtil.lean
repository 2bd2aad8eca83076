import Mathlib.Tactic.Linarith
import Mathlib.Tactic.Ring
import Mathlib.Data.Nat.Bitwise

/-!
# 128-bit products and quotients

`int-util.h`: the product of two words and the quotient of two words by half a word, each once with the
128-bit integers of the compiler and once by hand.
-/

namespace Boolberry

/-- `mul128`: `(product_hi, product_lo)`. -/
def mul128 (multiplier multiplicand : UInt64) : UInt64 × UInt64 :=
  let product := multiplier.toNat * multiplicand.toNat
  (UInt64.ofNat (product / 2 ^ 64), UInt64.ofNat product)

def hiDword (val : UInt64) : UInt64 := val >>> 32
def loDword (val : UInt64) : UInt64 := val &&& 0xFFFFFFFF

def mul128Manually (multiplier multiplicand : UInt64) : UInt64 × UInt64 :=
  let a := hiDword multiplier
  let b := loDword multiplier
  let c := hiDword multiplicand
  let d := loDword multiplicand
  let ac := a * c
  let ad := a * d
  let bc := b * c
  let bd := b * d
  let adbc := ad + bc
  let adbcCarry : UInt64 := if adbc < ad then 1 else 0
  let productLo := bd + adbc <<< 32
  let productLoCarry : UInt64 := if productLo < bd then 1 else 0
  (ac + adbc >>> 32 + adbcCarry <<< 32 + productLoCarry, productLo)

/-- `div128_32`: the remainder and the two words of the quotient. -/
def div128_32 (dividendHi dividendLo : UInt64) (divisor : UInt32) : UInt32 × UInt64 × UInt64 :=
  let dividend := dividendHi.toNat * 2 ^ 64 + dividendLo.toNat
  let quotient := dividend / divisor.toNat
  (UInt32.ofNat (dividend % divisor.toNat), UInt64.ofNat (quotient / 2 ^ 64), UInt64.ofNat quotient)

/-- `div_with_reminder`: the quotient and the new remainder. -/
def divWithReminder (dividend : UInt64) (divisor remainder : UInt32) : UInt64 × UInt32 :=
  let dividend := dividend ||| remainder.toUInt64 <<< 32
  (dividend / divisor.toUInt64, (dividend % divisor.toUInt64).toUInt32)

/-- `div128_32_manually`: a long division in dwords. -/
def div128_32Manually (dividendHi dividendLo : UInt64) (divisor : UInt32) :
    UInt32 × UInt64 × UInt64 :=
  let r₃ := divWithReminder (hiDword dividendHi) divisor 0
  let r₂ := divWithReminder (loDword dividendHi) divisor r₃.2
  let r₁ := divWithReminder (hiDword dividendLo) divisor r₂.2
  let r₀ := divWithReminder (loDword dividendLo) divisor r₁.2
  (r₀.2, r₃.1 <<< 32 ||| r₂.1, r₁.1 <<< 32 ||| r₀.1)

theorem mul128_exact (a b : UInt64) :
    (mul128 a b).1.toNat * 2 ^ 64 + (mul128 a b).2.toNat = a.toNat * b.toNat := by
  have hlt : a.toNat * b.toNat < 2 ^ 64 * 2 ^ 64 := Nat.mul_lt_mul'' a.toNat_lt b.toNat_lt
  have hhi : a.toNat * b.toNat / 2 ^ 64 < 2 ^ 64 := Nat.div_lt_of_lt_mul hlt
  unfold mul128
  dsimp only
  rw [UInt64.toNat_ofNat', UInt64.toNat_ofNat', Nat.mod_eq_of_lt hhi]
  omega

theorem hiDword_toNat (v : UInt64) : (hiDword v).toNat = v.toNat / 2 ^ 32 := by
  unfold hiDword
  rw [UInt64.toNat_shiftRight, Nat.shiftRight_eq_div_pow]
  rfl

theorem loDword_toNat (v : UInt64) : (loDword v).toNat = v.toNat % 2 ^ 32 := by
  unfold loDword
  rw [UInt64.toNat_and]
  exact Nat.and_two_pow_sub_one_eq_mod v.toNat 32

theorem toNat_shiftLeft_dword (v : UInt64) : (v <<< 32).toNat = v.toNat % 2 ^ 32 * 2 ^ 32 := by
  rw [UInt64.toNat_shiftLeft, Nat.shiftLeft_eq]
  change v.toNat * 2 ^ 32 % 2 ^ 64 = _
  omega

/-- Two words are determined by the number they make up. -/
theorem words_ext {p q : UInt64 × UInt64}
    (h : p.1.toNat * 2 ^ 64 + p.2.toNat = q.1.toNat * 2 ^ 64 + q.2.toNat) : p = q := by
  have hp := p.2.toNat_lt
  have hq := q.2.toNat_lt
  refine Prod.ext (UInt64.toNat_inj.mp ?_) (UInt64.toNat_inj.mp ?_) <;> omega

theorem mul_dwords_lt {a b : ℕ} (ha : a < 2 ^ 32) (hb : b < 2 ^ 32) :
    a * b ≤ 2 ^ 64 - 2 ^ 33 + 1 := by
  calc a * b ≤ (2 ^ 32 - 1) * (2 ^ 32 - 1) := Nat.mul_le_mul (by omega) (by omega)
    _ = 2 ^ 64 - 2 ^ 33 + 1 := by norm_num

/-- The product by hand is the product of the compiler. -/
theorem mul128Manually_eq (x y : UInt64) : mul128Manually x y = mul128 x y := by
  apply words_ext
  rw [mul128_exact]
  have hx := x.toNat_lt
  have hy := y.toNat_lt
  have ha : (hiDword x).toNat < 2 ^ 32 := by rw [hiDword_toNat]; omega
  have hb : (loDword x).toNat < 2 ^ 32 := by rw [loDword_toNat]; omega
  have hc : (hiDword y).toNat < 2 ^ 32 := by rw [hiDword_toNat]; omega
  have hd : (loDword y).toNat < 2 ^ 32 := by rw [loDword_toNat]; omega
  have hxy : x.toNat * y.toNat =
      ((hiDword x).toNat * 2 ^ 32 + (loDword x).toNat) *
        ((hiDword y).toNat * 2 ^ 32 + (loDword y).toNat) := by
    rw [hiDword_toNat, loDword_toNat, hiDword_toNat, loDword_toNat, Nat.div_add_mod',
      Nat.div_add_mod']
  have hlt : x.toNat * y.toNat < 2 ^ 64 * 2 ^ 64 := Nat.mul_lt_mul'' hx hy
  unfold mul128Manually
  dsimp only
  generalize hiDword x = a at *
  generalize loDword x = b at *
  generalize hiDword y = c at *
  generalize loDword y = d at *
  -- no partial product wraps
  have exact : ∀ u v : UInt64, u.toNat < 2 ^ 32 → v.toNat < 2 ^ 32 →
      (u * v).toNat = u.toNat * v.toNat ∧ (u * v).toNat ≤ 2 ^ 64 - 2 ^ 33 + 1 := by
    intro u v hu hv
    have hle := mul_dwords_lt hu hv
    have heq : (u * v).toNat = u.toNat * v.toNat := by
      rw [UInt64.toNat_mul]
      exact Nat.mod_eq_of_lt (by omega)
    exact ⟨heq, heq.trans_le hle⟩
  obtain ⟨hac, hacle⟩ := exact a c ha hc
  obtain ⟨had, hadle⟩ := exact a d ha hd
  obtain ⟨hbc, hbcle⟩ := exact b c hb hc
  obtain ⟨hbd, hbdle⟩ := exact b d hb hd
  have hsum : x.toNat * y.toNat = (a * c).toNat * 2 ^ 64 +
      ((a * d).toNat + (b * c).toNat) * 2 ^ 32 + (b * d).toNat := by
    rw [hxy, hac, had, hbc, hbd]
    ring
  rw [hsum] at hlt ⊢
  generalize a * c = ac at *
  generalize a * d = ad at *
  generalize b * c = bc at *
  generalize b * d = bd at *
  have hshift : ∀ v : UInt64, (v >>> 32).toNat = v.toNat / 2 ^ 32 := hiDword_toNat
  simp only [UInt64.toNat_add, toNat_shiftLeft_dword, hshift, UInt64.lt_iff_toNat_lt]
  split_ifs with h1 h2 h2 <;> simp only [UInt64.toNat_zero, UInt64.toNat_one] <;> omega

/-- The two words are the quotient, and the remainder is that of the division. -/
theorem div128_32_exact (hi lo : UInt64) {divisor : UInt32} (hd : divisor ≠ 0) :
    let r := div128_32 hi lo divisor
    r.1.toNat = (hi.toNat * 2 ^ 64 + lo.toNat) % divisor.toNat ∧
      r.2.1.toNat * 2 ^ 64 + r.2.2.toNat = (hi.toNat * 2 ^ 64 + lo.toNat) / divisor.toNat := by
  have hhi := hi.toNat_lt
  have hlo := lo.toNat_lt
  have hdiv := divisor.toNat_lt
  have hpos : 0 < divisor.toNat := Nat.pos_of_ne_zero fun h0 => hd (UInt32.toNat_inj.mp h0)
  have hq : (hi.toNat * 2 ^ 64 + lo.toNat) / divisor.toNat ≤ hi.toNat * 2 ^ 64 + lo.toNat :=
    Nat.div_le_self _ _
  have hr : (hi.toNat * 2 ^ 64 + lo.toNat) % divisor.toNat < divisor.toNat := Nat.mod_lt _ hpos
  unfold div128_32
  dsimp only
  rw [UInt32.toNat_ofNat', UInt64.toNat_ofNat', UInt64.toNat_ofNat',
    Nat.mod_eq_of_lt (hr.trans hdiv)]
  generalize (hi.toNat * 2 ^ 64 + lo.toNat) / divisor.toNat = q at *
  exact ⟨rfl, by omega⟩

theorem toNat_or_dword {lo hi : UInt64} (hlo : lo.toNat < 2 ^ 32) :
    (lo ||| hi <<< 32).toNat = hi.toNat % 2 ^ 32 * 2 ^ 32 + lo.toNat := by
  rw [UInt64.toNat_or, toNat_shiftLeft_dword, Nat.lor_comm, ← Nat.shiftLeft_eq]
  exact (Nat.shiftLeft_add_eq_or_of_lt hlo _).symm

theorem divWithReminder_exact {dividend : UInt64} {divisor remainder : UInt32}
    (hdividend : dividend.toNat < 2 ^ 32) (hrem : remainder < divisor) :
    let r := divWithReminder dividend divisor remainder
    r.1.toNat * divisor.toNat + r.2.toNat = remainder.toNat * 2 ^ 32 + dividend.toNat ∧
      r.2 < divisor ∧ r.1.toNat < 2 ^ 32 := by
  have hrem' : remainder.toNat < divisor.toNat := hrem
  have hd := divisor.toNat_lt
  have hr := remainder.toNat_lt
  have hword : (dividend ||| remainder.toUInt64 <<< 32).toNat =
      remainder.toNat * 2 ^ 32 + dividend.toNat := by
    rw [toNat_or_dword hdividend, UInt32.toNat_toUInt64, Nat.mod_eq_of_lt hr]
  have hq : (remainder.toNat * 2 ^ 32 + dividend.toNat) / divisor.toNat < 2 ^ 32 := by
    refine Nat.div_lt_of_lt_mul ?_
    calc remainder.toNat * 2 ^ 32 + dividend.toNat < (remainder.toNat + 1) * 2 ^ 32 := by omega
      _ ≤ divisor.toNat * 2 ^ 32 := Nat.mul_le_mul_right _ hrem'
  have hm : (remainder.toNat * 2 ^ 32 + dividend.toNat) % divisor.toNat < divisor.toNat :=
    Nat.mod_lt _ (by omega)
  have hrest : (divWithReminder dividend divisor remainder).2.toNat =
      (remainder.toNat * 2 ^ 32 + dividend.toNat) % divisor.toNat := by
    unfold divWithReminder
    dsimp only
    rw [UInt64.toNat_toUInt32, UInt64.toNat_mod, hword, UInt32.toNat_toUInt64]
    exact Nat.mod_eq_of_lt (hm.trans hd)
  have hquot : (divWithReminder dividend divisor remainder).1.toNat =
      (remainder.toNat * 2 ^ 32 + dividend.toNat) / divisor.toNat := by
    unfold divWithReminder
    dsimp only
    rw [UInt64.toNat_div, hword, UInt32.toNat_toUInt64]
  dsimp only
  rw [hrest, hquot]
  refine ⟨Nat.div_add_mod' _ _, ?_, hq⟩
  rw [UInt32.lt_iff_toNat_lt, hrest]
  exact hm

/-- The quotient by hand is the quotient of the compiler. -/
theorem div128_32Manually_eq (hi lo : UInt64) {divisor : UInt32} (hd : divisor ≠ 0) :
    div128_32Manually hi lo divisor = div128_32 hi lo divisor := by
  have hpos : (0 : UInt32) < divisor :=
    UInt32.lt_iff_toNat_lt.mpr (Nat.pos_of_ne_zero fun h0 => hd (UInt32.toNat_inj.mp h0))
  have hhi := hi.toNat_lt
  have hlo := lo.toNat_lt
  have hdwords : ∀ v : UInt64, (hiDword v).toNat < 2 ^ 32 ∧ (loDword v).toNat < 2 ^ 32 ∧
      v.toNat = (hiDword v).toNat * 2 ^ 32 + (loDword v).toNat := by
    intro v
    have hv := v.toNat_lt
    rw [hiDword_toNat, loDword_toNat]
    omega
  obtain ⟨h3, h2, hhi'⟩ := hdwords hi
  obtain ⟨h1, h0, hlo'⟩ := hdwords lo
  obtain ⟨e3, l3, q3⟩ := divWithReminder_exact h3 hpos
  obtain ⟨e2, l2, q2⟩ := divWithReminder_exact h2 l3
  obtain ⟨e1, l1, q1⟩ := divWithReminder_exact h1 l2
  obtain ⟨e0, l0, q0⟩ := divWithReminder_exact h0 l1
  obtain ⟨hrem, hquot⟩ := div128_32_exact hi lo hd
  unfold div128_32Manually
  dsimp only
  generalize divWithReminder (hiDword hi) divisor 0 = r₃ at *
  generalize divWithReminder (loDword hi) divisor r₃.2 = r₂ at *
  generalize divWithReminder (hiDword lo) divisor r₂.2 = r₁ at *
  generalize divWithReminder (loDword lo) divisor r₁.2 = r₀ at *
  have hor : ∀ u v : UInt64, u.toNat < 2 ^ 32 → v.toNat < 2 ^ 32 →
      (u <<< 32 ||| v).toNat = u.toNat * 2 ^ 32 + v.toNat := by
    intro u v hu hv
    rw [UInt64.or_comm, toNat_or_dword hv, Nat.mod_eq_of_lt hu]
  -- the four steps make up one division
  have hsteps : (((r₃.1.toNat * 2 ^ 32 + r₂.1.toNat) * 2 ^ 64 +
      (r₁.1.toNat * 2 ^ 32 + r₀.1.toNat)) * divisor.toNat + r₀.2.toNat) =
      hi.toNat * 2 ^ 64 + lo.toNat := by
    rw [hhi', hlo']
    rw [UInt32.toNat_zero, Nat.zero_mul, Nat.zero_add] at e3
    linarith only [e3, e2, e1, e0]
  have hl0 : r₀.2.toNat < divisor.toNat := l0
  have hq : (hi.toNat * 2 ^ 64 + lo.toNat) / divisor.toNat =
      (r₃.1.toNat * 2 ^ 32 + r₂.1.toNat) * 2 ^ 64 + (r₁.1.toNat * 2 ^ 32 + r₀.1.toNat) := by
    rw [← hsteps, Nat.add_comm, Nat.add_mul_div_right _ _ (by omega), Nat.div_eq_of_lt hl0,
      Nat.zero_add]
  have hm : (hi.toNat * 2 ^ 64 + lo.toNat) % divisor.toNat = r₀.2.toNat := by
    rw [← hsteps, Nat.add_comm, Nat.add_mul_mod_self_right, Nat.mod_eq_of_lt hl0]
  refine Prod.ext (UInt32.toNat_inj.mp (hm.symm.trans hrem.symm)) (words_ext ?_)
  dsimp only
  rw [hquot, hq, hor _ _ q3 q2, hor _ _ q1 q0]

/-- The assertion of `mul128_manually`: the product of the high dwords is in the high word. -/
theorem hiDword_mul_le (a b : UInt64) : hiDword a * hiDword b ≤ (mul128 a b).1 := by
  have hexact := mul128_exact a b
  have hlo := (mul128 a b).2.toNat_lt
  have ha : (hiDword a).toNat * 2 ^ 32 ≤ a.toNat := by
    rw [hiDword_toNat]
    exact Nat.div_mul_le_self _ _
  have hb : (hiDword b).toNat * 2 ^ 32 ≤ b.toNat := by
    rw [hiDword_toNat]
    exact Nat.div_mul_le_self _ _
  have hle : (hiDword a).toNat * (hiDword b).toNat * 2 ^ 64 ≤ a.toNat * b.toNat := by
    calc (hiDword a).toNat * (hiDword b).toNat * 2 ^ 64
        = (hiDword a).toNat * 2 ^ 32 * ((hiDword b).toNat * 2 ^ 32) := by ring
      _ ≤ a.toNat * b.toNat := Nat.mul_le_mul ha hb
  rw [UInt64.le_iff_toNat_le, UInt64.toNat_mul]
  exact (Nat.mod_le _ _).trans (by omega)

/-- By hand, the product is exact and the assertion holds, the quotient and the remainder are exact, and
both are those of the compiler. -/
theorem manually_exact (a b hi lo : UInt64) {divisor : UInt32} (hd : divisor ≠ 0) :
    (mul128Manually a b).1.toNat * 2 ^ 64 + (mul128Manually a b).2.toNat = a.toNat * b.toNat ∧
      hiDword a * hiDword b ≤ (mul128Manually a b).1 ∧
      (div128_32Manually hi lo divisor).1.toNat = (hi.toNat * 2 ^ 64 + lo.toNat) % divisor.toNat ∧
      (div128_32Manually hi lo divisor).2.1.toNat * 2 ^ 64 +
        (div128_32Manually hi lo divisor).2.2.toNat = (hi.toNat * 2 ^ 64 + lo.toNat) / divisor.toNat ∧
      mul128Manually a b = mul128 a b ∧
      div128_32Manually hi lo divisor = div128_32 hi lo divisor := by
  rw [mul128Manually_eq, div128_32Manually_eq hi lo hd]
  obtain ⟨hrem, hquot⟩ := div128_32_exact hi lo hd
  exact ⟨mul128_exact a b, hiDword_mul_le a b, hrem, hquot, rfl, rfl⟩

/-- The greatest operands. -/
theorem manually_exact_max :
    (0xFFFFFFFF : UInt32) ≠ 0 ∧
      mul128Manually 0xFFFFFFFFFFFFFFFF 0xFFFFFFFFFFFFFFFF = (0xFFFFFFFFFFFFFFFE, 1) ∧
      div128_32Manually 0xFFFFFFFFFFFFFFFF 0xFFFFFFFFFFFFFFFF 0xFFFFFFFF =
        div128_32 0xFFFFFFFFFFFFFFFF 0xFFFFFFFFFFFFFFFF 0xFFFFFFFF :=
  ⟨by decide, by decide,
    (manually_exact 0xFFFFFFFFFFFFFFFF 0xFFFFFFFFFFFFFFFF 0xFFFFFFFFFFFFFFFF 0xFFFFFFFFFFFFFFFF
      (by decide)).2.2.2.2.2⟩

end Boolberry
