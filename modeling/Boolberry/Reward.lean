import Boolberry.FormatUtils

/-!
# Emission and donations

`currency_basic_impl.cpp`: the base reward, the size penalty and the daily donation.
-/

namespace Boolberry

/-- One round of the loop of `get_donations_anount_for_day` on
`(amount, already_donated_coins)`; the running total, not the increment, is
subtracted, so the counter wraps below zero. -/
def donationsRound (st : UInt64 × UInt64) : UInt64 × UInt64 :=
  let amount := st.1 + (DONATIONS_SUPPLY - st.2) >>> EMISSION_CURVE_CHARACTER
  (amount, st.2 - amount)

/-- The state after the first `n` rounds. -/
def donationsRounds : ℕ → UInt64 × UInt64 → UInt64 × UInt64
  | 0, st => st
  | n + 1, st => donationsRound (donationsRounds n st)

/-- `get_donations_anount_for_day`. The accumulator is an `int64_t` that stays
below `2 ^ 63`, so its bits are those of the unsigned one here. -/
def getDonationsAnountForDay (alreadyDonatedCoins : UInt64) (votes : List Bool) : UInt64 :=
  let votesCount := UInt64.ofNat (votes.count true)
  let amount := (donationsRounds CURRENCY_DONATIONS_INTERVAL (0, alreadyDonatedCoins)).1
  let amount := amount * votesCount / UInt64.ofNat CURRENCY_DONATIONS_INTERVAL
  amount - amount % DEFAULT_DUST_THRESHOLD

/-- `get_donation_parts`: `(royalty, donation)`. -/
def getDonationParts (totalDonations : UInt64) : UInt64 × UInt64 :=
  (totalDonations / 10, totalDonations - totalDonations / 10)

def getBaseBlockReward (alreadyGeneratedCoins : UInt64) : UInt64 :=
  let baseReward := (EMISSION_SUPPLY - alreadyGeneratedCoins) >>> EMISSION_CURVE_CHARACTER
  baseReward - baseReward % DEFAULT_DUST_THRESHOLD

/-- `get_block_reward`. Block sizes are lengths of blobs in memory, so `2 * median`
and their sums do not wrap; `mul128` and `div128_32` are exact. -/
def getBlockReward (medianSize currentBlockSize : ℕ) (alreadyGeneratedCoins : UInt64) :
    Option UInt64 :=
  let baseReward := getBaseBlockReward alreadyGeneratedCoins
  let medianSize := if medianSize < CURRENCY_BLOCK_GRANTED_FULL_REWARD_ZONE then
    CURRENCY_BLOCK_GRANTED_FULL_REWARD_ZONE else medianSize
  if currentBlockSize ≤ medianSize then some baseReward
  else if 2 * medianSize < currentBlockSize then none
  else if 2 ^ 32 - 1 ≤ medianSize ∨ 2 ^ 32 - 1 ≤ currentBlockSize then none
  else
    let product := baseReward.toNat * (currentBlockSize * (2 * medianSize - currentBlockSize))
    let reward := product / medianSize / medianSize
    if reward / 2 ^ 64 ≠ 0 then none
    else if baseReward.toNat ≤ reward % 2 ^ 64 then none
    else some (UInt64.ofNat (reward % 2 ^ 64))

end Boolberry
