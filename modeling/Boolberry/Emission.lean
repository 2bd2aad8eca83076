import Mathlib.Data.UInt
import Boolberry.IntUtil
import Boolberry.Supply

/-!
# Rewards and donations in words

The size penalty and the daily donation are computed in machine words. Below, where no word wraps and
no cast cuts anything off, and what the results are as exact numbers.
-/

namespace Boolberry

/-- The median that counts: blocks of the granted zone are never penalised. -/
def softMedian (medianSize : UInt64) : UInt64 :=
  if medianSize < UInt64.ofNat CURRENCY_BLOCK_GRANTED_FULL_REWARD_ZONE then
    UInt64.ofNat CURRENCY_BLOCK_GRANTED_FULL_REWARD_ZONE
  else medianSize

/-- `get_block_reward` in the words it computes with. -/
def getBlockRewardWords (medianSize currentBlockSize alreadyGeneratedCoins : UInt64) : Option UInt64 :=
  let baseReward := getBaseBlockReward alreadyGeneratedCoins
  let medianSize := softMedian medianSize
  if currentBlockSize ≤ medianSize then some baseReward
  else if 2 * medianSize < currentBlockSize then none
  else if ¬medianSize < 2 ^ 32 - 1 then none
  else if ¬currentBlockSize < 2 ^ 32 - 1 then none
  else
    let product := mul128 baseReward (currentBlockSize * (2 * medianSize - currentBlockSize))
    let once := (div128_32 product.1 product.2 medianSize.toUInt32).2
    let twice := (div128_32 once.1 once.2 medianSize.toUInt32).2
    if 0 ≠ twice.1 then none
    else if ¬twice.2 < baseReward then none
    else some twice.2

/-- The reward as a number: the whole one up to the median `m`, nothing above `2 * m`, and a part that
falls off quadratically between. -/
def rewardFormula (medianSize size base : ℕ) : Option ℕ :=
  let m := max medianSize CURRENCY_BLOCK_GRANTED_FULL_REWARD_ZONE
  if size ≤ m then some base
  else if size ≤ 2 * m then some (base * size * (2 * m - size) / m ^ 2)
  else none

/-- The words of the penalty for a size between `m` and `2 * m` are the numbers they stand for. -/
structure RewardBits (m size base : UInt64) : Prop where
  double : (2 * m).toNat = 2 * m.toNat
  factor : (size * (2 * m - size)).toNat = size.toNat * (2 * m.toNat - size.toNat)
  divisor : m.toUInt32.toNat = m.toNat
  product : let p := mul128 base (size * (2 * m - size))
    p.1.toNat * 2 ^ 64 + p.2.toNat = base.toNat * (size.toNat * (2 * m.toNat - size.toNat))
  once : let p := mul128 base (size * (2 * m - size))
    let q := (div128_32 p.1 p.2 m.toUInt32).2
    q.1.toNat * 2 ^ 64 + q.2.toNat =
      base.toNat * (size.toNat * (2 * m.toNat - size.toNat)) / m.toNat
  twice : let p := mul128 base (size * (2 * m - size))
    let q := (div128_32 p.1 p.2 m.toUInt32).2
    let r := (div128_32 q.1 q.2 m.toUInt32).2
    r.1.toNat * 2 ^ 64 + r.2.toNat =
      base.toNat * (size.toNat * (2 * m.toNat - size.toNat)) / m.toNat / m.toNat

theorem mul_two_sub_le (s m : ℕ) (h : s ≤ 2 * m) : s * (2 * m - s) ≤ m ^ 2 := by
  obtain ⟨t, ht⟩ := Nat.exists_eq_add_of_le h
  have hsum := four_mul_le_sq_add s t
  rw [← ht] at hsum
  rw [ht, Nat.add_sub_cancel_left]
  nlinarith

theorem rewardBits {m size : UInt64} (base : UInt64) (hpos : m ≠ 0) (hm : m.toNat < 2 ^ 32 - 1)
    (hle : size.toNat ≤ 2 * m.toNat) : RewardBits m size base := by
  have hdouble : (2 * m).toNat = 2 * m.toNat := by
    rw [UInt64.toNat_mul]
    exact Nat.mod_eq_of_lt (by change 2 * m.toNat < _; omega)
  have hsub : (2 * m - size).toNat = 2 * m.toNat - size.toNat := by
    rw [UInt64.toNat_sub_of_le _ _ (by rw [UInt64.le_iff_toNat_le, hdouble]; exact hle), hdouble]
  have hsquare : m.toNat ^ 2 < 2 ^ 64 := by
    calc m.toNat ^ 2 < (2 ^ 32) ^ 2 := Nat.pow_lt_pow_left (by omega) (by decide)
      _ = 2 ^ 64 := by norm_num
  have hfactor : (size * (2 * m - size)).toNat = size.toNat * (2 * m.toNat - size.toNat) := by
    rw [UInt64.toNat_mul, hsub]
    exact Nat.mod_eq_of_lt ((mul_two_sub_le _ _ hle).trans_lt hsquare)
  have hdivisor : m.toUInt32.toNat = m.toNat := by
    rw [UInt64.toNat_toUInt32]
    exact Nat.mod_eq_of_lt (by omega)
  have hne : m.toUInt32 ≠ 0 := by
    intro h0
    rw [h0] at hdivisor
    exact hpos (UInt64.toNat_inj.mp hdivisor.symm)
  have hproduct := mul128_exact base (size * (2 * m - size))
  rw [hfactor] at hproduct
  have honce := fun hi lo => (div128_32_exact hi lo hne).2
  refine ⟨hdouble, hfactor, hdivisor, hproduct, ?_, ?_⟩
  · dsimp only
    rw [honce, hproduct, hdivisor]
  · dsimp only
    rw [honce, honce, hproduct, hdivisor]

theorem softMedian_toNat (medianSize : UInt64) : (softMedian medianSize).toNat =
    max medianSize.toNat CURRENCY_BLOCK_GRANTED_FULL_REWARD_ZONE := by
  have hzone : (UInt64.ofNat CURRENCY_BLOCK_GRANTED_FULL_REWARD_ZONE).toNat =
      CURRENCY_BLOCK_GRANTED_FULL_REWARD_ZONE := by decide
  unfold softMedian
  split_ifs with h
  · rw [UInt64.lt_iff_toNat_lt, hzone] at h
    rw [hzone, max_eq_right h.le]
  · rw [UInt64.lt_iff_toNat_lt, hzone] at h
    rw [max_eq_left (by omega)]

theorem softMedian_bounds {medianSize : UInt64} (hm : medianSize.toNat < 2 ^ 32 - 1) :
    (softMedian medianSize).toNat < 2 ^ 32 - 1 ∧ softMedian medianSize ≠ 0 := by
  have h := softMedian_toNat medianSize
  have hzone : CURRENCY_BLOCK_GRANTED_FULL_REWARD_ZONE = 30000 := rfl
  refine ⟨by omega, fun h0 => ?_⟩
  rw [h0, UInt64.toNat_zero] at h
  omega

/-- The reward between the median and its double is below the whole one, unless that is zero. -/
theorem penalty_lt {s m base : ℕ} (hs : m < s) (hle : s ≤ 2 * m) (hbase : base ≠ 0) :
    base * (s * (2 * m - s)) / m / m < base := by
  have hm : 0 < m := by omega
  have hlt : s * (2 * m - s) < m * m := by
    obtain ⟨k, rfl⟩ := Nat.exists_eq_add_of_lt hs
    obtain ⟨j, hj⟩ := Nat.exists_eq_add_of_le hle
    have hsub : 2 * m - (m + k + 1) = m - (k + 1) := by omega
    rw [hsub]
    obtain ⟨i, rfl⟩ : ∃ i, m = i + (k + 1) := ⟨m - (k + 1), by omega⟩
    rw [Nat.add_sub_cancel]
    nlinarith
  rw [Nat.div_div_eq_div_mul]
  refine Nat.div_lt_of_lt_mul ?_
  rw [Nat.mul_comm (m * m)]
  exact Nat.mul_lt_mul_of_pos_left hlt (Nat.pos_of_ne_zero hbase)

/-- In words and in numbers: the reward follows the formula, but a base reward of zero is only paid to
blocks up to the median. -/
theorem getBlockRewardWords_cases {medianSize size : UInt64} (coins : UInt64)
    (hm : medianSize.toNat < 2 ^ 32 - 1) (hs : size.toNat < 2 ^ 32 - 1) :
    (getBlockRewardWords medianSize size coins).map UInt64.toNat =
      if size.toNat ≤ (softMedian medianSize).toNat ∨ getBaseBlockReward coins ≠ 0 then
        rewardFormula medianSize.toNat size.toNat (getBaseBlockReward coins).toNat
      else none := by
  obtain ⟨hlt, hne⟩ := softMedian_bounds hm
  have hmax := softMedian_toNat medianSize
  have hword : ((2 : UInt64) ^ 32 - 1).toNat = 2 ^ 32 - 1 := by decide
  unfold getBlockRewardWords rewardFormula
  dsimp only
  rw [← hmax]
  generalize softMedian medianSize = m at hlt hne
  generalize getBaseBlockReward coins = base
  simp only [UInt64.le_iff_toNat_le, UInt64.lt_iff_toNat_lt, hword, hlt, hs, not_true_eq_false, if_false]
  by_cases hsmall : size.toNat ≤ m.toNat
  · simp only [hsmall, if_true, true_or, Option.map_some]
  simp only [hsmall, if_false, false_or]
  by_cases hbig : size.toNat ≤ 2 * m.toNat
  · have hbits := rewardBits base hne hlt hbig
    have htwice := hbits.twice
    dsimp only at htwice
    rw [hbits.double, if_neg (Nat.not_lt.mpr hbig)]
    generalize (div128_32 _ _ m.toUInt32).2 = r at htwice ⊢
    simp only [hbig, if_true]
    by_cases hbase : base = 0
    · -- the quotient is zero, which is not below the base reward
      subst hbase
      rw [UInt64.toNat_zero, Nat.zero_mul, Nat.zero_div, Nat.zero_div] at htwice
      simp only [ne_eq, not_true_eq_false, if_false, UInt64.toNat_zero, Nat.not_lt_zero,
        not_false_eq_true, if_true, ite_self, Option.map_none]
    · have hpenalty := penalty_lt (Nat.not_le.mp hsmall) hbig
        (fun h0 => hbase (UInt64.toNat_inj.mp h0))
      have hbase' := base.toNat_lt
      have hhi : r.1 = 0 := UInt64.toNat_inj.mp (by rw [UInt64.toNat_zero]; omega)
      have hlo : r.2.toNat = base.toNat * (size.toNat * (2 * m.toNat - size.toNat)) / m.toNat / m.toNat := by
        rw [← htwice, hhi]
        simp
      simp only [hhi, ne_eq, not_true_eq_false, hbase, not_false_eq_true, if_false, if_true, hlo,
        hpenalty, Option.map_some]
      rw [Nat.div_div_eq_div_mul, Nat.mul_assoc, pow_two]
  · have hdouble : (2 * m).toNat = 2 * m.toNat := by
      rw [UInt64.toNat_mul]
      exact Nat.mod_eq_of_lt (by change 2 * m.toNat < _; omega)
    rw [hdouble, if_pos (Nat.not_le.mp hbig)]
    simp only [hbig, if_false, ite_self, Option.map_none]

/-- The penalty in numbers, as the rest of the model has it, is the one in words. -/
theorem getBlockReward_eq_words {medianSize size : UInt64} (coins : UInt64)
    (hm : medianSize.toNat < 2 ^ 32 - 1) (hs : size.toNat < 2 ^ 32 - 1) :
    getBlockReward medianSize.toNat size.toNat coins = getBlockRewardWords medianSize size coins := by
  have hinj : Function.Injective (Option.map UInt64.toNat) :=
    Option.map_injective fun a b => UInt64.toNat_inj.mp
  refine hinj ?_
  rw [getBlockRewardWords_cases coins hm hs, softMedian_toNat]
  obtain ⟨hlt, -⟩ := softMedian_bounds hm
  rw [softMedian_toNat] at hlt
  have hmax : (if medianSize.toNat < CURRENCY_BLOCK_GRANTED_FULL_REWARD_ZONE then
      CURRENCY_BLOCK_GRANTED_FULL_REWARD_ZONE else medianSize.toNat) =
      max medianSize.toNat CURRENCY_BLOCK_GRANTED_FULL_REWARD_ZONE := by
    split_ifs with h
    · exact (max_eq_right h.le).symm
    · exact (max_eq_left (by omega)).symm
  unfold getBlockReward rewardFormula
  dsimp only
  rw [hmax]
  generalize max medianSize.toNat CURRENCY_BLOCK_GRANTED_FULL_REWARD_ZONE = m at hlt
  generalize getBaseBlockReward coins = base
  by_cases hsmall : size.toNat ≤ m
  · simp only [hsmall, if_true, true_or, Option.map_some]
  by_cases hbig : size.toNat ≤ 2 * m
  · rw [if_neg hsmall, if_neg (by omega), if_neg (by omega), if_neg hsmall, if_pos hbig]
    by_cases hbase : base = 0
    · subst hbase
      simp [hsmall]
    · have hpenalty := penalty_lt (Nat.not_le.mp hsmall) hbig
        (fun h0 => hbase (UInt64.toNat_inj.mp h0))
      have hbase' := base.toNat_lt
      have hformula : base.toNat * size.toNat * (2 * m - size.toNat) / m ^ 2 =
          base.toNat * (size.toNat * (2 * m - size.toNat)) / m / m := by
        rw [Nat.div_div_eq_div_mul, Nat.mul_assoc, pow_two]
      rw [hformula]
      generalize base.toNat * (size.toNat * (2 * m - size.toNat)) / m / m = reward at hpenalty
      rw [if_neg (by omega), if_neg (by omega), if_pos (Or.inr hbase), Option.map_some,
        UInt64.toNat_ofNat', Nat.mod_mod, Nat.mod_eq_of_lt (by omega)]
  · rw [if_neg hsmall, if_pos (by omega), if_neg hsmall, if_neg hbig]
    simp

theorem getBaseBlockReward_ne_zero_iff {coins : UInt64} (hc : coins ≤ EMISSION_SUPPLY) :
    getBaseBlockReward coins ≠ 0 ↔
      DEFAULT_DUST_THRESHOLD.toNat * 2 ^ 20 ≤ EMISSION_SUPPLY.toNat - coins.toNat := by
  have hsub : (EMISSION_SUPPLY - coins).toNat = EMISSION_SUPPLY.toNat - coins.toNat :=
    UInt64.toNat_sub_of_le _ _ hc
  have hshift : ((EMISSION_SUPPLY - coins) >>> EMISSION_CURVE_CHARACTER).toNat =
      (EMISSION_SUPPLY.toNat - coins.toNat) / 2 ^ 20 := by
    rw [UInt64.toNat_shiftRight, hsub, Nat.shiftRight_eq_div_pow]
    rfl
  unfold getBaseBlockReward
  dsimp only
  generalize (EMISSION_SUPPLY - coins) >>> EMISSION_CURVE_CHARACTER = base at hshift
  have hmod : (base - base % DEFAULT_DUST_THRESHOLD).toNat =
      base.toNat - base.toNat % DEFAULT_DUST_THRESHOLD.toNat := by
    rw [UInt64.toNat_sub_of_le _ _ (by
      rw [UInt64.le_iff_toNat_le, UInt64.toNat_mod]
      exact Nat.mod_le _ _), UInt64.toNat_mod]
  have hdust : DEFAULT_DUST_THRESHOLD.toNat = 1000000 := rfl
  rw [hdust] at hmod ⊢
  generalize EMISSION_SUPPLY.toNat - coins.toNat = left at hshift
  rw [ne_eq, ← UInt64.toNat_inj, hmod, UInt64.toNat_zero]
  omega

/-- Between the median and its double nothing is lost in the words, and the reward is that of the
formula exactly when the block is not penalised or the base reward is not zero. -/
theorem getBlockReward_exact_iff (medianSize size coins : UInt64)
    (hm : medianSize.toNat < 2 ^ 32 - 1) (hs : size.toNat < 2 ^ 32 - 1) (hc : coins ≤ EMISSION_SUPPLY) :
    (((softMedian medianSize).toNat < size.toNat → size.toNat ≤ 2 * (softMedian medianSize).toNat →
        RewardBits (softMedian medianSize) size (getBaseBlockReward coins)) ∧
      (getBlockRewardWords medianSize size coins).map UInt64.toNat =
        rewardFormula medianSize.toNat size.toNat (getBaseBlockReward coins).toNat) ↔
    (size.toNat ≤ max medianSize.toNat CURRENCY_BLOCK_GRANTED_FULL_REWARD_ZONE ∨
      2 * max medianSize.toNat CURRENCY_BLOCK_GRANTED_FULL_REWARD_ZONE < size.toNat ∨
      DEFAULT_DUST_THRESHOLD.toNat * 2 ^ 20 ≤ EMISSION_SUPPLY.toNat - coins.toNat) := by
  obtain ⟨hlt, hne⟩ := softMedian_bounds hm
  rw [and_iff_right fun _ hle => rewardBits _ hne hlt hle, getBlockRewardWords_cases coins hm hs,
    ← getBaseBlockReward_ne_zero_iff hc, ← softMedian_toNat]
  split_ifs with h
  · simp only [true_iff]
    exact h.imp_right Or.inr
  · obtain ⟨hbig, hzero⟩ := not_or.mp h
    unfold rewardFormula
    dsimp only
    rw [← softMedian_toNat, if_neg hbig]
    simp only [hbig, hzero, false_or, or_false]
    split_ifs with hle
    · simp only [false_iff]
      omega
    · simp only [true_iff]
      omega

/-- At the start of the emission a block of one and a half granted zones. -/
theorem getBlockReward_exact_iff_start :
    (getBlockRewardWords 0 45000 0).map UInt64.toNat =
      rewardFormula 0 45000 (getBaseBlockReward 0).toNat ∧
    (getBlockReward 0 45000 0).map UInt64.toNat =
      rewardFormula 0 45000 (getBaseBlockReward 0).toNat := by
  have hwords := ((getBlockReward_exact_iff 0 45000 0 (by decide) (by decide) (by decide)).mpr
    (Or.inr (Or.inr (by decide)))).2
  have hnumbers := @getBlockReward_eq_words 0 45000 0 (by decide) (by decide)
  rw [show (0 : UInt64).toNat = 0 from rfl, show (45000 : UInt64).toNat = 45000 from rfl] at hnumbers
  refine ⟨hwords, ?_⟩
  rw [hnumbers]
  exact hwords

/-- When the emission is over, a block above the granted zone is refused though it is below the double
of it. -/
theorem getBlockReward_refuses_at_end : ¬∀ medianSize size coins : UInt64,
    medianSize.toNat < 2 ^ 32 - 1 → size.toNat < 2 ^ 32 - 1 → coins ≤ EMISSION_SUPPLY →
    (getBlockRewardWords medianSize size coins).map UInt64.toNat =
      rewardFormula medianSize.toNat size.toNat (getBaseBlockReward coins).toNat := by
  intro hall
  have h := hall 0 30001 EMISSION_SUPPLY (by decide) (by decide) (by decide)
  exact absurd h (by decide)

/-- The signed total and its product with the votes are exact and stay in range. -/
structure DonationsFit (donated : UInt64) (votes : List Bool) : Prop where
  rounds : ∀ k < CURRENCY_DONATIONS_INTERVAL, let st := donationsRounds k (0, donated)
    (donationsRound st).1.toNat =
        st.1.toNat + ((DONATIONS_SUPPLY - st.2) >>> EMISSION_CURVE_CHARACTER).toNat ∧
      (donationsRound st).1.toNat < 2 ^ 63
  product : let amount := (donationsRounds CURRENCY_DONATIONS_INTERVAL (0, donated)).1
    (amount * UInt64.ofNat (votes.count true)).toNat = amount.toNat * votes.count true ∧
      amount.toNat * votes.count true < 2 ^ 63

theorem donationsFit {donated : UInt64} (hd : donated ≤ DONATIONS_SUPPLY) {votes : List Bool}
    (hv : votes.length ≤ CURRENCY_DONATIONS_INTERVAL) : DonationsFit donated votes := by
  refine ⟨fun k hk => ?_, donationsProduct_toNat hd hv⟩
  have hsupply : DONATIONS_SUPPLY.toNat < 2 ^ 58 := by decide
  have hbound := donationsBound hd hk.le
  have hexact := hbound.exact (Nat.sub_le _ _) hk
  obtain ⟨hleft, hamount⟩ := hbound.left_le hk
  have hshift : ((DONATIONS_SUPPLY - (donationsRounds k (0, donated)).2) >>>
      EMISSION_CURVE_CHARACTER).toNat = donationsLeft (donationsRounds k (0, donated)) / 2 ^ 20 := by
    rw [UInt64.toNat_shiftRight, donationsLeft, Nat.shiftRight_eq_div_pow]
    rfl
  dsimp only
  rw [hshift]
  exact ⟨hexact, by omega⟩

/-- A day's donation is made without overflow, is free of dust, fits in what is left of the supply and
grows with the votes. -/
theorem getDonationsAnountForDay_spec (donated : UInt64) (votes : List Bool)
    (hd : donated ≤ DONATIONS_SUPPLY) (hv : votes.length = CURRENCY_DONATIONS_INTERVAL) :
    DonationsFit donated votes ∧
    DEFAULT_DUST_THRESHOLD.toNat ∣ (getDonationsAnountForDay donated votes).toNat ∧
    (getDonationsAnountForDay donated votes).toNat ≤ DONATIONS_SUPPLY.toNat - donated.toNat ∧
    ∀ votes' : List Bool, votes'.length = CURRENCY_DONATIONS_INTERVAL →
      votes.count true ≤ votes'.count true →
      getDonationsAnountForDay donated votes ≤ getDonationsAnountForDay donated votes' := by
  have hle := getDonationsAnountForDay_le donated votes hd hv.le
  refine ⟨donationsFit hd hv.le, ?_, by omega, fun votes' hv' hcount => ?_⟩
  · rw [getDonationsAnountForDay_toNat hd hv.le]
    exact Nat.dvd_sub_mod _
  · rw [UInt64.le_iff_toNat_le, getDonationsAnountForDay_toNat hd hv.le,
      getDonationsAnountForDay_toNat hd hv'.le]
    have hday := Nat.div_le_div_right (c := 720)
      (Nat.mul_le_mul_left (donationsAmount donated) hcount)
    -- cutting the dust off is monotone
    have hdust := Nat.mul_le_mul_left DEFAULT_DUST_THRESHOLD.toNat
      (Nat.div_le_div_right (c := DEFAULT_DUST_THRESHOLD.toNat) hday)
    have hcut : ∀ a : ℕ, a - a % DEFAULT_DUST_THRESHOLD.toNat =
        DEFAULT_DUST_THRESHOLD.toNat * (a / DEFAULT_DUST_THRESHOLD.toNat) := by
      intro a
      have := Nat.div_add_mod a DEFAULT_DUST_THRESHOLD.toNat
      omega
    rw [hcut, hcut]
    exact hdust

/-- Half of the votes at the start of the supply. -/
theorem getDonationsAnountForDay_spec_half :
    getDonationsAnountForDay 0 (List.replicate 360 true ++ List.replicate 360 false) ≤
      getDonationsAnountForDay 0 (List.replicate 720 true) := by
  have hlen : (List.replicate 360 true ++ List.replicate 360 false).length = 720 := by
    rw [List.length_append, List.length_replicate, List.length_replicate]
  have hcount : (List.replicate 360 true ++ List.replicate 360 false).count true ≤
      (List.replicate 720 true).count true := by
    rw [List.count_replicate_self, ← hlen]
    exact List.count_le_length
  exact (getDonationsAnountForDay_spec 0 _ (by decide) hlen).2.2.2 _ List.length_replicate hcount

end Boolberry
