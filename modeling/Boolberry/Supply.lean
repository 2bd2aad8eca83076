import Mathlib.Tactic.Linarith
import Mathlib.Tactic.NormNum
import Mathlib.Tactic.Ring
import Boolberry.OutputIndex

/-!
# The money supply

The reward and donation formulas, the coinbase check and the overflow checks of
the pool together bound what the main chain holds: outputs exceed inputs by no
more than the generated and the donated coins, and neither counter leaves its
share of the supply.
-/

namespace Boolberry
open KeyValue

/-- The exact sum of a list of amounts. -/
def sumAmounts (l : List UInt64) : ℕ := (l.map UInt64.toNat).sum

theorem checkOverflow_toNat {money : UInt64} {l : List UInt64} (h : checkOverflow money l = true) :
    (l.foldl (· + ·) money).toNat = money.toNat + sumAmounts l := by
  induction l generalizing money with
  | nil => simp [sumAmounts]
  | cons a l ih =>
    unfold checkOverflow at h
    split_ifs at h with hlt
    have hadd : (money + a).toNat = money.toNat + a.toNat := by
      have hge : money.toNat ≤ (a + money).toNat := UInt64.not_lt.mp hlt
      have ha := a.toNat_lt
      have hm := money.toNat_lt
      rw [UInt64.toNat_add] at hge ⊢
      omega
    rw [List.foldl_cons, ih h, hadd]
    simp only [sumAmounts, List.map_cons, List.sum_cons]
    omega

/-- The exact total of the outputs of a transaction. -/
def outsTotal (tx : Transaction) : ℕ := sumAmounts (tx.vout.map TxOut.amount)

/-- The exact total of the `txin_to_key` inputs of a transaction. -/
def insTotal (tx : Transaction) : ℕ := sumAmounts ((toKeyInputs tx).map TxinToKey.amount)

theorem toKeyAmounts_eq {vin : List Txin} (h : (vin.all fun i => i.toKey?.isSome) = true) :
    toKeyAmounts vin = some ((vin.filterMap Txin.toKey?).map TxinToKey.amount) := by
  induction vin with
  | nil => rfl
  | cons i l ih =>
    rw [List.all_cons, Bool.and_eq_true] at h
    cases i with
    | toKey inp => simp [toKeyAmounts, ih h.2, Txin.toKey?]
    | gen g => simp [Txin.toKey?] at h
    | toScript a b c => simp [Txin.toKey?] at h
    | toScripthash a b c d => simp [Txin.toKey?] at h

/-- What a transaction that passed the pool's checks pays in and out, exactly. -/
theorem Semantic.money {E : Env} {tx : Transaction} (h : Semantic E tx) :
    outsTotal tx + (feeOf tx).toNat = insTotal tx := by
  have hamounts := toKeyAmounts_eq h.types
  have hover := h.overflow
  have hlt := h.amounts
  simp only [checkMoneyOverflow, checkInputsOverflow, hamounts, Bool.and_eq_true,
    checkOutsOverflow] at hover
  have hins := checkOverflow_toNat hover.1
  have houts := checkOverflow_toNat hover.2
  simp only [getInputsMoneyAmount, hamounts, Option.map_some, Option.getD_some] at hlt
  simp only [feeOf, getInputsMoneyAmount, hamounts, Option.map_some, Option.getD_some]
  have hle : (getOutsMoneyAmount tx).toNat ≤ (List.foldl (· + ·) 0
      ((tx.vin.filterMap Txin.toKey?).map TxinToKey.amount)).toNat := UInt64.le_of_lt hlt
  rw [UInt64.toNat_sub_of_le _ _ hle, hins]
  rw [hins] at hle
  rw [getOutsMoneyAmount, houts] at hle ⊢
  simp only [UInt64.toNat_zero, Nat.zero_add] at hle ⊢
  exact Nat.add_sub_cancel' hle

theorem getBaseBlockReward_le (coins : UInt64) (h : coins ≤ EMISSION_SUPPLY) :
    coins.toNat + (getBaseBlockReward coins).toNat ≤ EMISSION_SUPPLY.toNat := by
  have hle : coins.toNat ≤ EMISSION_SUPPLY.toNat := h
  have hsub : (EMISSION_SUPPLY - coins).toNat = EMISSION_SUPPLY.toNat - coins.toNat :=
    UInt64.toNat_sub_of_le _ _ hle
  have hshift : ((EMISSION_SUPPLY - coins) >>> EMISSION_CURVE_CHARACTER).toNat ≤
      EMISSION_SUPPLY.toNat - coins.toNat := by
    rw [UInt64.toNat_shiftRight, ← hsub, Nat.shiftRight_eq_div_pow]
    exact Nat.div_le_self _ _
  have hdust : (getBaseBlockReward coins).toNat ≤
      ((EMISSION_SUPPLY - coins) >>> EMISSION_CURVE_CHARACTER).toNat := by
    simp only [getBaseBlockReward]
    rw [UInt64.toNat_sub_of_le _ _ (by
      rw [UInt64.le_iff_toNat_le, UInt64.toNat_mod]
      exact Nat.mod_le _ _)]
    exact Nat.sub_le _ _
  omega

theorem getBlockReward_le {medianSize size : ℕ} {coins reward : UInt64}
    (h : getBlockReward medianSize size coins = some reward) :
    reward.toNat ≤ (getBaseBlockReward coins).toNat := by
  unfold getBlockReward at h
  simp only at h
  generalize (if medianSize < CURRENCY_BLOCK_GRANTED_FULL_REWARD_ZONE then
    CURRENCY_BLOCK_GRANTED_FULL_REWARD_ZONE else medianSize) = m at h
  split_ifs at h with h1 h2 h3 h4 h5
  · rw [← Option.some.inj h]
  · rw [← Option.some.inj h, UInt64.toNat_ofNat']
    omega

/-- What is left of the donations supply in a round of the donation loop. -/
def donationsLeft (st : UInt64 × UInt64) : ℕ := (DONATIONS_SUPPLY - st.2).toNat

/-- The loop state after `k` rounds from `x` coins left: the amount grows at most linearly and what
is left at most quadratically in the number of rounds. -/
structure DonationsBound (x k : ℕ) (st : UInt64 × UInt64) : Prop where
  amount : st.1.toNat * 2 ^ 20 ≤ 2 * k * x
  left : donationsLeft st * 2 ^ 20 ≤ x * 2 ^ 20 + 2 * k ^ 2 * x

/-- In the first rounds what is left is at most doubled, so nothing wraps. -/
theorem DonationsBound.left_le {x k : ℕ} {st : UInt64 × UInt64} (hk : k < CURRENCY_DONATIONS_INTERVAL)
    (h : DonationsBound x k st) : donationsLeft st ≤ 2 * x ∧ st.1.toNat ≤ x := by
  have hk' : k ≤ 719 := Nat.le_of_lt_succ hk
  have hksq : 2 * k ^ 2 * x ≤ 2 ^ 20 * x := by
    refine Nat.mul_le_mul_right x ?_
    calc 2 * k ^ 2 ≤ 2 * 719 ^ 2 := Nat.mul_le_mul_left 2 (Nat.pow_le_pow_left hk' 2)
      _ ≤ 2 ^ 20 := by norm_num
  have hkx : 2 * k * x ≤ 2 ^ 20 * x := Nat.mul_le_mul_right x (by omega)
  have h1 := h.amount
  have h2 := h.left
  omega

theorem DonationsBound.exact {x k : ℕ} {st : UInt64 × UInt64} (hx : x ≤ DONATIONS_SUPPLY.toNat)
    (hk : k < CURRENCY_DONATIONS_INTERVAL) (h : DonationsBound x k st) :
    (donationsRound st).1.toNat = st.1.toNat + donationsLeft st / 2 ^ 20 := by
  have hsupply : DONATIONS_SUPPLY.toNat < 2 ^ 58 := by decide
  obtain ⟨hleft, hamount⟩ := h.left_le hk
  have hshift : ((DONATIONS_SUPPLY - st.2) >>> EMISSION_CURVE_CHARACTER).toNat =
      donationsLeft st / 2 ^ 20 := by
    rw [UInt64.toNat_shiftRight, donationsLeft, Nat.shiftRight_eq_div_pow]
    rfl
  simp only [donationsRound]
  rw [UInt64.toNat_add, hshift]
  exact Nat.mod_eq_of_lt (by omega)

theorem DonationsBound.round {x k : ℕ} {st : UInt64 × UInt64} (hx : x ≤ DONATIONS_SUPPLY.toNat)
    (hk : k < CURRENCY_DONATIONS_INTERVAL) (h : DonationsBound x k st) :
    DonationsBound x (k + 1) (donationsRound st) := by
  have hsupply : DONATIONS_SUPPLY.toNat < 2 ^ 58 := by decide
  have h1 := h.amount
  have h2 := h.left
  obtain ⟨hleft, hamount⟩ := h.left_le hk
  have hnew := h.exact hx hk
  have hnewLeft : donationsLeft (donationsRound st) =
      donationsLeft st + (donationsRound st).1.toNat := by
    have hsub : DONATIONS_SUPPLY - (donationsRound st).2 =
        (DONATIONS_SUPPLY - st.2) + (donationsRound st).1 := by
      simp only [donationsRound]
      grind
    rw [donationsLeft, hsub, UInt64.toNat_add]
    exact Nat.mod_eq_of_lt (by change donationsLeft st + _ < _; omega)
  have hdiv : donationsLeft st / 2 ^ 20 * 2 ^ 20 ≤ 2 * x :=
    (Nat.div_mul_le_self _ _).trans hleft
  have hround : (donationsRound st).1.toNat * 2 ^ 20 ≤ 2 * (k + 1) * x := by
    rw [hnew, Nat.add_mul]
    calc st.1.toNat * 2 ^ 20 + donationsLeft st / 2 ^ 20 * 2 ^ 20 ≤ 2 * k * x + 2 * x :=
          Nat.add_le_add h1 hdiv
      _ = 2 * (k + 1) * x := by ring
  refine ⟨hround, ?_⟩
  rw [hnewLeft, Nat.add_mul]
  calc donationsLeft st * 2 ^ 20 + (donationsRound st).1.toNat * 2 ^ 20
      ≤ x * 2 ^ 20 + 2 * k ^ 2 * x + 2 * (k + 1) * x := Nat.add_le_add h2 hround
    _ ≤ x * 2 ^ 20 + 2 * (k + 1) ^ 2 * x := by nlinarith

theorem DonationsBound.rounds {x n : ℕ} {st : UInt64 × UInt64} (hx : x ≤ DONATIONS_SUPPLY.toNat)
    (hn : n ≤ CURRENCY_DONATIONS_INTERVAL) (h : DonationsBound x 0 st) :
    DonationsBound x n (donationsRounds n st) := by
  induction n with
  | zero => exact h
  | succ n ih =>
    rw [donationsRounds]
    exact (ih (by omega)).round hx (by omega)

theorem donationsBound {donated : UInt64} (hd : donated ≤ DONATIONS_SUPPLY) {n : ℕ}
    (hn : n ≤ CURRENCY_DONATIONS_INTERVAL) :
    DonationsBound (DONATIONS_SUPPLY.toNat - donated.toNat) n (donationsRounds n (0, donated)) := by
  have hx : donationsLeft (0, donated) = DONATIONS_SUPPLY.toNat - donated.toNat :=
    UInt64.toNat_sub_of_le _ _ hd
  have hstart : DonationsBound (DONATIONS_SUPPLY.toNat - donated.toNat) 0 (0, donated) :=
    ⟨by simp, by rw [hx]; omega⟩
  exact hstart.rounds (Nat.sub_le _ _) hn

/-- The amount the loop arrives at from `donated` coins. -/
def donationsAmount (donated : UInt64) : ℕ :=
  (donationsRounds CURRENCY_DONATIONS_INTERVAL (0, donated)).1.toNat

theorem donationsAmount_le {donated : UInt64} (hd : donated ≤ DONATIONS_SUPPLY) :
    donationsAmount donated * 2 ^ 20 ≤ 2 * 720 * (DONATIONS_SUPPLY.toNat - donated.toNat) :=
  (donationsBound hd (le_refl CURRENCY_DONATIONS_INTERVAL)).amount

theorem donationsProduct_toNat {donated : UInt64} (hd : donated ≤ DONATIONS_SUPPLY) {votes : List Bool}
    (hv : votes.length ≤ CURRENCY_DONATIONS_INTERVAL) :
    ((donationsRounds CURRENCY_DONATIONS_INTERVAL (0, donated)).1 *
        UInt64.ofNat (votes.count true)).toNat = donationsAmount donated * votes.count true ∧
      donationsAmount donated * votes.count true < 2 ^ 63 := by
  have hsupply : DONATIONS_SUPPLY.toNat < 2 ^ 58 := by decide
  have hbound := donationsAmount_le hd
  have hcount : votes.count true ≤ 720 := (List.count_le_length).trans hv
  have hvotes : (UInt64.ofNat (votes.count true)).toNat = votes.count true := by
    rw [UInt64.toNat_ofNat']
    exact Nat.mod_eq_of_lt (by omega)
  have hmul : donationsAmount donated * votes.count true ≤ donationsAmount donated * 720 :=
    Nat.mul_le_mul_left _ hcount
  rw [UInt64.toNat_mul, hvotes]
  change donationsAmount donated * votes.count true % 2 ^ 64 = _ ∧ _
  exact ⟨Nat.mod_eq_of_lt (by omega), by omega⟩

theorem getDonationsAnountForDay_toNat {donated : UInt64} (hd : donated ≤ DONATIONS_SUPPLY)
    {votes : List Bool} (hv : votes.length ≤ CURRENCY_DONATIONS_INTERVAL) :
    (getDonationsAnountForDay donated votes).toNat =
      donationsAmount donated * votes.count true / 720 -
        donationsAmount donated * votes.count true / 720 % DEFAULT_DUST_THRESHOLD.toNat := by
  obtain ⟨hprod, -⟩ := donationsProduct_toNat hd hv
  have hinterval : (UInt64.ofNat CURRENCY_DONATIONS_INTERVAL).toNat = 720 := by decide
  simp only [getDonationsAnountForDay]
  have hday := UInt64.toNat_div ((donationsRounds CURRENCY_DONATIONS_INTERVAL (0, donated)).1 *
    UInt64.ofNat (votes.count true)) (UInt64.ofNat CURRENCY_DONATIONS_INTERVAL)
  rw [hprod, hinterval] at hday
  rw [UInt64.toNat_sub_of_le _ _ (by
    rw [UInt64.le_iff_toNat_le, UInt64.toNat_mod]
    exact Nat.mod_le _ _), UInt64.toNat_mod, hday]

theorem getDonationsAnountForDay_le (donated : UInt64) (votes : List Bool)
    (hd : donated ≤ DONATIONS_SUPPLY) (hv : votes.length ≤ CURRENCY_DONATIONS_INTERVAL) :
    donated.toNat + (getDonationsAnountForDay donated votes).toNat ≤ DONATIONS_SUPPLY.toNat := by
  have hsupply : DONATIONS_SUPPLY.toNat < 2 ^ 58 := by decide
  have hle : donated.toNat ≤ DONATIONS_SUPPLY.toNat := hd
  have hbound := donationsAmount_le hd
  have hcount : votes.count true ≤ 720 := (List.count_le_length).trans hv
  have hmul : donationsAmount donated * votes.count true ≤ donationsAmount donated * 720 :=
    Nat.mul_le_mul_left _ hcount
  rw [getDonationsAnountForDay_toNat hd hv]
  omega

/-- The donation of an accepted block fits in what is left, and its two parts add up exactly. -/
theorem minerDonation_le {E : Env} {blocks : List BlockExtendedInfo} {b : Block}
    {donation royalty donated : UInt64} (h : minerDonation E blocks b = some (donation, royalty))
    (hd : donated ≤ DONATIONS_SUPPLY)
    (hlast : ∀ bei, blocks.getLast? = some bei → bei.alreadyDonatedCoins = donated) :
    (donation + royalty).toNat = donation.toNat + royalty.toNat ∧
      donated.toNat + (donation + royalty).toNat ≤ DONATIONS_SUPPLY.toNat := by
  unfold minerDonation at h
  simp only at h
  split_ifs at h with hh
  · cases hl : lookforDonation E b.minerTx with
    | none => simp [hl] at h
    | some q =>
      obtain ⟨d, r⟩ := q
      simp only [hl] at h
      split_ifs at h with hval
      obtain ⟨rfl, rfl⟩ : d = donation ∧ r = royalty := Prod.mk.inj (Option.some.inj h)
      unfold validateDonationsValue at hval
      cases hreq : getRequiredDonationsValueForNextBlock blocks with
      | none => simp [hreq] at hval
      | some expected =>
        simp only [hreq, Bool.and_eq_true, decide_eq_true_eq] at hval
        obtain ⟨hsum, hroyalty, hdonation⟩ := hval
        have hten : r.toNat = expected.toNat / 10 := by
          rw [← hroyalty, getDonationParts, UInt64.toNat_div]
          rfl
        have hrest : d.toNat = expected.toNat - expected.toNat / 10 := by
          rw [← hdonation, getDonationParts, UInt64.toNat_sub_of_le _ _ (by
            rw [UInt64.le_iff_toNat_le, UInt64.toNat_div]
            exact Nat.div_le_self _ _), UInt64.toNat_div]
          rfl
        refine ⟨by rw [hsum]; omega, ?_⟩
        rw [hsum]
        unfold getRequiredDonationsValueForNextBlock at hreq
        simp only at hreq
        split_ifs at hreq with hsz
        obtain ⟨bei, hbei, rfl⟩ := Option.map_eq_some_iff.mp hreq
        rw [hlast bei hbei]
        refine getDonationsAnountForDay_le donated _ hd ?_
        simp only [List.length_map, List.length_drop]
        omega
  · obtain ⟨rfl, rfl⟩ := Prod.mk.inj (Option.some.inj h)
    exact ⟨by simp, by simpa using UInt64.le_iff_toNat_le.mp hd⟩

/-- The exact total of the outputs of a list of transactions. -/
def entriesOuts (l : List TxEntry) : ℕ := (l.map fun te => outsTotal te.tx).sum

/-- The exact total of the `txin_to_key` inputs of a list of transactions. -/
def entriesIns (l : List TxEntry) : ℕ := (l.map fun te => insTotal te.tx).sum

/-- The coins donated up to the end of a block list. -/
def donatedCoins (blocks : List BlockExtendedInfo) : UInt64 :=
  match blocks.getLast? with
  | none => 0
  | some last => last.alreadyDonatedCoins

theorem feesOf_le (es : List TxEntry) (fee : UInt64) :
    (feesOf es fee).toNat ≤ fee.toNat + (es.map fun te => (feeOf te.tx).toNat).sum := by
  induction es generalizing fee with
  | nil => simp [feesOf]
  | cons te es ih =>
    have h := ih (fee + feeOf te.tx)
    have hadd : (fee + feeOf te.tx).toNat ≤ fee.toNat + (feeOf te.tx).toNat := by
      rw [UInt64.toNat_add]
      exact Nat.mod_le _ _
    simp only [feesOf, List.foldl_cons, List.map_cons, List.sum_cons] at h ⊢
    omega

theorem TxsOK.semantic {E : Env} {t h : ℕ} {zone : Bool} {l es : List TxEntry}
    (hok : TxsOK E t h zone l es) : ∀ te ∈ es, Semantic E te.tx := by
  induction es generalizing l with
  | nil => simp
  | cons x es ih =>
    obtain ⟨-, hx, -, -, -, hr⟩ := hok
    intro te hte
    rcases List.mem_cons.mp hte with rfl | hte
    · exact hx
    · exact ih hr te hte

/-- Transactions that passed the pool's checks pay out what they take in less their fees. -/
theorem entriesOuts_add_fees {E : Env} {es : List TxEntry} (h : ∀ te ∈ es, Semantic E te.tx) :
    entriesOuts es + (es.map fun te => (feeOf te.tx).toNat).sum = entriesIns es := by
  induction es with
  | nil => rfl
  | cons te es ih =>
    have h1 := (h te (by simp)).money
    have h2 := ih fun te' hte' => h te' (by simp [hte'])
    simp only [entriesOuts, entriesIns, List.map_cons, List.sum_cons] at h2 ⊢
    omega

theorem outsTotal_coinbase {b : Block} {h : ℕ} (hm : prevalidateMinerTransaction b h = true) :
    outsTotal b.minerTx = (getOutsMoneyAmount b.minerTx).toNat ∧ insTotal b.minerTx = 0 := by
  obtain ⟨g, hg, -⟩ := vin_of_prevalidate hm
  unfold prevalidateMinerTransaction at hm
  simp only [hg, Bool.and_eq_true] at hm
  refine ⟨?_, by rw [insTotal, toKeyInputs, hg]; rfl⟩
  rw [getOutsMoneyAmount, checkOverflow_toNat hm.2]
  simp [outsTotal]

theorem ValidNext.supply {E : Env} {cps : Checkpoints} {t : ℕ} {chain : List ChainBlock}
    {c : ChainBlock} (h : ValidNext E cps t chain c)
    (hg : generatedCoins (blocksOf chain) ≤ EMISSION_SUPPLY)
    (hd : donatedCoins (blocksOf chain) ≤ DONATIONS_SUPPLY) :
    ∃ baseReward donation royalty : UInt64,
      getBlockReward (median (getLastNBlocksSizes (blocksOf chain) CURRENCY_REWARD_BLOCKS_WINDOW))
        c.bei.blockCumulativeSize (generatedCoins (blocksOf chain)) = some baseReward ∧
      minerDonation E (blocksOf chain) c.bei.bl = some (donation, royalty) ∧
      c.bei.alreadyGeneratedCoins.toNat =
        (generatedCoins (blocksOf chain)).toNat + baseReward.toNat ∧
      c.bei.alreadyDonatedCoins.toNat =
        (donatedCoins (blocksOf chain)).toNat + (donation.toNat + royalty.toNat) ∧
      c.bei.alreadyGeneratedCoins ≤ EMISSION_SUPPLY ∧
      c.bei.alreadyDonatedCoins ≤ DONATIONS_SUPPLY ∧
      entriesOuts (c.entries E) ≤
        entriesIns (c.entries E) + baseReward.toNat + (donation.toNat + royalty.toNat) := by
  obtain ⟨baseReward, donationTotal, hval, hbei⟩ := h.record
  obtain ⟨donation, royalty, hdon, hrew, hpay, rfl⟩ := validateMinerTransaction_some hval
  have hsize : c.bei.blockCumulativeSize = sizesOf c.txs (getObjectBlobsize c.bei.bl.minerTx) := by
    rw [hbei]
    rfl
  have hgen : c.bei.alreadyGeneratedCoins = generatedCoins (blocksOf chain) + baseReward := by
    rw [hbei]
    unfold nextBlockExtendedInfo generatedCoins
    cases (blocksOf chain).getLast? <;> simp
  have hdonated : c.bei.alreadyDonatedCoins =
      donatedCoins (blocksOf chain) + (donation + royalty) := by
    rw [hbei]
    unfold nextBlockExtendedInfo donatedCoins
    cases (blocksOf chain).getLast? <;> simp
  -- the emission counter stays in its share of the supply
  have hbase := getBlockReward_le hrew
  have hroom := getBaseBlockReward_le _ hg
  have hgenNat : c.bei.alreadyGeneratedCoins.toNat =
      (generatedCoins (blocksOf chain)).toNat + baseReward.toNat := by
    have := EMISSION_SUPPLY.toNat_lt
    rw [hgen, UInt64.toNat_add]
    exact Nat.mod_eq_of_lt (by omega)
  -- and so does the donations counter
  obtain ⟨hparts, hleft⟩ := minerDonation_le hdon hd (fun bei hlast => by
    rw [donatedCoins, hlast])
  have hdonNat : c.bei.alreadyDonatedCoins.toNat =
      (donatedCoins (blocksOf chain)).toNat + (donation.toNat + royalty.toNat) := by
    have := DONATIONS_SUPPLY.toNat_lt
    rw [hdonated, UInt64.toNat_add, hparts]
    rw [hparts] at hleft
    exact Nat.mod_eq_of_lt (by omega)
  refine ⟨baseReward, donation, royalty, by rw [hsize]; exact hrew, hdon, hgenNat, hdonNat,
    UInt64.le_iff_toNat_le.mpr (by omega), UInt64.le_iff_toNat_le.mpr (by omega), ?_⟩
  -- the coinbase pays out the reward, the fees and the donation
  obtain ⟨hcb, hcbIns⟩ := outsTotal_coinbase h.header.miner
  have hmoney : getOutsMoneyAmount c.bei.bl.minerTx =
      baseReward + feesOf c.txs 0 + (donation + royalty) := by
    rw [hpay]
    grind
  have houts : outsTotal c.bei.bl.minerTx ≤
      baseReward.toNat + (feesOf c.txs 0).toNat + (donation.toNat + royalty.toNat) := by
    rw [hcb, hmoney, UInt64.toNat_add, UInt64.toNat_add, hparts]
    exact (Nat.mod_le _ _).trans (Nat.add_le_add_right (Nat.mod_le _ _) _)
  have hfees := feesOf_le c.txs 0
  have htxs := entriesOuts_add_fees h.txs.semantic
  simp only [UInt64.toNat_zero] at hfees
  simp only [entriesOuts, entriesIns, ChainBlock.entries, coinbaseEntry, List.map_cons,
    List.sum_cons, hcbIns] at htxs ⊢
  omega

theorem entriesOuts_append (l l' : List TxEntry) :
    entriesOuts (l ++ l') = entriesOuts l + entriesOuts l' := by simp [entriesOuts]

theorem entriesIns_append (l l' : List TxEntry) :
    entriesIns (l ++ l') = entriesIns l + entriesIns l' := by simp [entriesIns]

/-- The counters of a valid chain stay in their shares, and its money is covered by them. -/
theorem ValidChain.supply {E : Env} {cps : Checkpoints} {t : ℕ} {chain : List ChainBlock}
    (hv : ValidChain E cps t chain) :
    generatedCoins (blocksOf chain) ≤ EMISSION_SUPPLY ∧
      donatedCoins (blocksOf chain) ≤ DONATIONS_SUPPLY ∧
      entriesOuts (entriesOf E chain) ≤ entriesIns (entriesOf E chain) +
        (generatedCoins (blocksOf chain)).toNat + (donatedCoins (blocksOf chain)).toNat := by
  induction hv with
  | @genesis c h =>
    obtain ⟨base, don, roy, -, -, hg, hd, hge, hde, hmoney⟩ := h.supply (by decide) (by decide)
    have hg0 : (generatedCoins (blocksOf [])).toNat = 0 := rfl
    have hd0 : (donatedCoins (blocksOf [])).toNat = 0 := rfl
    have hentries : entriesOf E [c] = c.entries E := by simp [entriesOf]
    refine ⟨hge, hde, ?_⟩
    change _ ≤ _ + c.bei.alreadyGeneratedCoins.toNat + c.bei.alreadyDonatedCoins.toNat
    rw [hentries]
    omega
  | @snoc chain c _ h ih =>
    obtain ⟨ihg, ihd, ihm⟩ := ih
    obtain ⟨base, don, roy, -, -, hg, hd, hge, hde, hmoney⟩ := h.supply ihg ihd
    have hlast : (blocksOf (chain ++ [c])).getLast? = some c.bei := by simp [blocksOf]
    have hentries : entriesOf E (chain ++ [c]) = entriesOf E chain ++ c.entries E := by
      simp [entriesOf]
    rw [generatedCoins, donatedCoins, hlast]
    refine ⟨hge, hde, ?_⟩
    rw [hentries, entriesOuts_append, entriesIns_append]
    simp only
    omega

/-- The exact total of `f` over the transactions stored for the main chain. -/
def chainTotal (E : Env) (n : Node) (f : Transaction → ℕ) : ℕ :=
  ((chainTxIds E n.blocks).map fun id => match n.txs.index.transactions.get id with
    | none => 0
    | some e => f e.tx).sum

/-- The money on the main chain is covered by the counters of its top block, and the counters are
exact sums inside their shares of the supply. -/
structure SupplyOK (E : Env) (n : Node) : Prop where
  money : ∀ top, n.blocks.getLast? = some top →
    (chainTotal E n outsTotal : ℤ) - chainTotal E n insTotal ≤
      top.alreadyGeneratedCoins.toNat + top.alreadyDonatedCoins.toNat
  emission : ∀ bei ∈ n.blocks, bei.alreadyGeneratedCoins ≤ EMISSION_SUPPLY
  donations : ∀ bei ∈ n.blocks, bei.alreadyDonatedCoins ≤ DONATIONS_SUPPLY
  noWrap : ∀ h bei, n.blocks[h]? = some bei → ∃ baseReward donation royalty : UInt64,
    getBlockReward (median (getLastNBlocksSizes (n.blocks.take h) CURRENCY_REWARD_BLOCKS_WINDOW))
      bei.blockCumulativeSize (generatedCoins (n.blocks.take h)) = some baseReward ∧
    minerDonation E (n.blocks.take h) bei.bl = some (donation, royalty) ∧
    bei.alreadyGeneratedCoins.toNat =
      (generatedCoins (n.blocks.take h)).toNat + baseReward.toNat ∧
    bei.alreadyDonatedCoins.toNat =
      (donatedCoins (n.blocks.take h)).toNat + (donation.toNat + royalty.toNat)

theorem chainTotal_eq {E : Env} {cps : Checkpoints} {t : ℕ} {F : Flags} {chain : List ChainBlock}
    {n : Node} (hv : ValidChain E cps t chain) (hrep : Rep E F chain n.toChainStores)
    (f : Transaction → ℕ) :
    chainTotal E n f = ((entriesOf E chain).map fun te => f te.tx).sum := by
  rw [chainTotal, hrep.blocks, chainTxIds_blocksOf hv, List.map_map, hrep.txs.index]
  congr 1
  refine List.map_congr_left fun te hte => ?_
  obtain ⟨e, he, htx, -⟩ := transactions_indexOf_mem F hrep.txs.linked.nodup_ids hte
  rw [Function.comp_apply, he]
  exact congrArg f htx

/-- In every reachable state the money supply is in order. -/
theorem supplyOK_of_reachable (E : Env) (cps : Checkpoints) (n : Node) (h : Reachable E cps n) :
    SupplyOK E n := by
  obtain ⟨F, chain, -, ⟨t, hv⟩, hrep⟩ := chainInv_of_reachable h
  -- what the counters are in front of the block at height `h`
  have hbelow : ∀ h, generatedCoins (blocksOf (chain.take h)) ≤ EMISSION_SUPPLY ∧
      donatedCoins (blocksOf (chain.take h)) ≤ DONATIONS_SUPPLY := by
    intro h
    by_cases h0 : h = 0
    · rw [h0, List.take_zero]
      exact ⟨by decide, by decide⟩
    · exact ⟨(hv.take h0).supply.1, (hv.take h0).supply.2.1⟩
  have hblock : ∀ (h : ℕ) (bei : BlockExtendedInfo), n.blocks[h]? = some bei →
      ∃ (c : ChainBlock) (cps' : Checkpoints), c.bei = bei ∧ ValidNext E cps' t (chain.take h) c := by
    intro h bei hbei
    rw [hrep.blocks] at hbei
    obtain ⟨c, hc, rfl⟩ : ∃ c : ChainBlock, chain[h]? = some c ∧ c.bei = bei := by
      simpa [blocksOf] using hbei
    obtain ⟨cps', hn, -⟩ := hv.at hc
    exact ⟨c, cps', rfl, hn⟩
  have htake : ∀ h, n.blocks.take h = blocksOf (chain.take h) := fun h => by
    rw [hrep.blocks]
    simp [blocksOf, List.map_take]
  refine ⟨fun top htop => ?_, fun bei hbei => ?_, fun bei hbei => ?_, fun h bei hbei => ?_⟩
  · have hmoney := hv.supply.2.2
    rw [chainTotal_eq hv hrep, chainTotal_eq hv hrep]
    rw [generatedCoins, donatedCoins, ← hrep.blocks, htop] at hmoney
    simp only [entriesOuts, entriesIns] at hmoney
    omega
  · obtain ⟨h, hh⟩ := List.getElem?_of_mem hbei
    obtain ⟨c, cps', rfl, hn⟩ := hblock h bei hh
    obtain ⟨_, _, _, -, -, -, -, hge, -⟩ := hn.supply (hbelow h).1 (hbelow h).2
    exact hge
  · obtain ⟨h, hh⟩ := List.getElem?_of_mem hbei
    obtain ⟨c, cps', rfl, hn⟩ := hblock h bei hh
    obtain ⟨_, _, _, -, -, -, -, -, hde, -⟩ := hn.supply (hbelow h).1 (hbelow h).2
    exact hde
  · obtain ⟨c, cps', rfl, hn⟩ := hblock h bei hbei
    obtain ⟨base, don, roy, h1, h2, h3, h4, -⟩ := hn.supply (hbelow h).1 (hbelow h).2
    rw [htake]
    exact ⟨base, don, roy, h1, h2, h3, h4⟩

theorem supplyOK_sampleNode : ∃ n, Reachable sampleEnv ∅ n ∧ n.blocks.length = 12 ∧
    (n.txs.index.transactions.get (getTransactionHash sampleEnv signedSpend)).isSome = true ∧
    SupplyOK sampleEnv n := by
  obtain ⟨n, hn, hlen, htx⟩ := exists_spending_node
  exact ⟨n, hn, hlen, htx, supplyOK_of_reachable sampleEnv ∅ n hn⟩

end Boolberry
