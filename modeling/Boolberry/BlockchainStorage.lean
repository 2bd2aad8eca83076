import Boolberry.BlockTransactions
import Boolberry.Difficulty
import Boolberry.Reward
import Boolberry.Checkpoints
import Boolberry.Scratchpad

/-!
# The main chain

The state of `blockchain_storage` and the code that extends and shortens the main
chain: `handle_block_to_main_chain`, `pop_block_from_blockchain` and what they
call. Functions that only read the block list take the list.
-/

namespace Boolberry
open KeyValue

/-- `scratchpad_wrapper`: the cache the node reads and the container behind it. -/
structure ScratchpadWrapper where
  scratchpadCache : List Hash
  rdbScratchpad : List Hash
deriving DecidableEq

namespace ScratchpadWrapper

def getScratchpad (w : ScratchpadWrapper) : List Hash := w.scratchpadCache

def pushBlockScratchpadData (E : Env) (b : Block) (w : ScratchpadWrapper) : ScratchpadWrapper :=
  ⟨Boolberry.pushBlockScratchpadData E b w.scratchpadCache,
    Boolberry.pushBlockScratchpadData E b w.rdbScratchpad⟩

/-- Both containers are popped, each unless its own call fails. -/
def popBlockScratchpadData (E : Env) (b : Block) (w : ScratchpadWrapper) : Bool × ScratchpadWrapper :=
  let cache := Boolberry.popBlockScratchpadData E b w.scratchpadCache
  let rdb := Boolberry.popBlockScratchpadData E b w.rdbScratchpad
  (cache.isSome && rdb.isSome, ⟨cache.getD w.scratchpadCache, rdb.getD w.rdbScratchpad⟩)

end ScratchpadWrapper

/-- The main chain with all that is derived from it, and the pool. -/
structure ChainStores where
  blocks : List BlockExtendedInfo
  blocksIndex : Map Hash ℕ
  txs : TxState
  scratchpad : ScratchpadWrapper

/-- The state of `blockchain_storage`. -/
structure Node extends ChainStores where
  currentBlockCumulSzLimit : ℕ
  currentPrunedRsHeight : ℕ
  invalidBlocks : Map Hash BlockExtendedInfo
  alternativeChains : Map Hash BlockExtendedInfo
  isInCheckpointZone : Bool
  checkpoints : Checkpoints
  lastMedianTsCheckedTopBlockId : Hash
  lastMedianTsChecked : UInt64

def Node.empty : Node where
  blocks := []
  blocksIndex := ∅
  txs := ⟨TxIndex.empty, ⟨∅, ∅⟩, TxMemoryPool.empty⟩
  scratchpad := ⟨[], []⟩
  currentBlockCumulSzLimit := 0
  currentPrunedRsHeight := 0
  invalidBlocks := ∅
  alternativeChains := ∅
  isInCheckpointZone := false
  checkpoints := ∅
  lastMedianTsCheckedTopBlockId := nullHash
  lastMedianTsChecked := 0

def getTopBlockId (E : Env) (blocks : List BlockExtendedInfo) : Hash :=
  match blocks.getLast? with
  | none => nullHash
  | some bei => getBlockHash E bei.bl

/-- The part of the block list that decides the next difficulty; genesis is never in it. -/
def difficultyWindow (blocks : List BlockExtendedInfo) : List BlockExtendedInfo :=
  let offset := blocks.length - min blocks.length DIFFICULTY_BLOCKS_COUNT
  blocks.drop (if offset = 0 then 1 else offset)

def getDifficultyForNextBlock (blocks : List BlockExtendedInfo) : WideDifficulty :=
  nextDifficulty ((difficultyWindow blocks).map fun bei => bei.bl.timestamp)
    ((difficultyWindow blocks).map fun bei => bei.cumulativeDifficulty)

def getLastNBlocksSizes (blocks : List BlockExtendedInfo) (count : ℕ) : List ℕ :=
  (blocks.drop (blocks.length - min blocks.length count)).map
    BlockExtendedInfo.blockCumulativeSize

/-- The answer of `check_block_timestamp`. -/
def timestampsAccept (timestamps : List UInt64) (b : Block) : Bool :=
  if timestamps.length < BLOCKCHAIN_TIMESTAMP_CHECK_WINDOW then true
  else !decide (b.timestamp < median timestamps)

/-- `check_block_timestamp`; an accepted median is remembered. -/
def checkBlockTimestamp (E : Env) (n : Node) (timestamps : List UInt64) (b : Block) : Bool × Node :=
  if timestamps.length < BLOCKCHAIN_TIMESTAMP_CHECK_WINDOW then (true, n)
  else if b.timestamp < median timestamps then (false, n)
  else (true, { n with
    lastMedianTsCheckedTopBlockId := getBlockHash E b, lastMedianTsChecked := median timestamps })

/-- The timestamps of the last `BLOCKCHAIN_TIMESTAMP_CHECK_WINDOW` blocks. -/
def lastTimestamps (blocks : List BlockExtendedInfo) : List UInt64 :=
  (blocks.drop (blocks.length - BLOCKCHAIN_TIMESTAMP_CHECK_WINDOW)).map fun bei => bei.bl.timestamp

def checkBlockTimestampMain (E : Env) (now : ℕ) (n : Node) (b : Block) : Bool × Node :=
  if now + CURRENCY_BLOCK_FUTURE_TIME_LIMIT < b.timestamp.toNat then (false, n)
  else checkBlockTimestamp E n (lastTimestamps n.blocks) b

def prevalidateMinerTransaction (b : Block) (height : ℕ) : Bool :=
  match b.minerTx.vin with
  | [.gen h] =>
      decide (h.toNat = height) &&
        decide (b.minerTx.unlockTime.toNat = height + CURRENCY_MINED_MONEY_UNLOCK_WINDOW) &&
        checkOutsOverflow b.minerTx
  | _ => false

/-- `lookfor_donation`: `(donation, royalty)`. -/
def lookforDonation (E : Env) (tx : Transaction) : Option (UInt64 × UInt64) :=
  match parseAndValidateTxExtra E tx with
  | none => none
  | some ei =>
      -- an output at `i` that pays to `acc`
      let paid (acc : AccountKeys) (i : ℕ) : Option UInt64 :=
        match tx.vout[i]? with
        | none => none
        | some o =>
            match o.target with
            | .toKey k => some (if E.isOutToAcc acc k ei.txPubKey i then o.amount else 0)
            | _ => none
      let first :=
        if 2 ≤ tx.vout.length then paid E.donationsAccount (tx.vout.length - 2) else some 0
      match first with
      | none => none
      | some donation =>
          if 1 ≤ tx.vout.length then
            if donation ≠ 0 then
              (paid E.royaltyAccount (tx.vout.length - 1)).map fun royalty => (donation, royalty)
            else
              (paid E.donationsAccount (tx.vout.length - 1)).map fun donation => (donation, 0)
          else some (donation, 0)

def getRequiredDonationsValueForNextBlock (blocks : List BlockExtendedInfo) : Option UInt64 :=
  let sz := blocks.length
  if sz < CURRENCY_DONATIONS_INTERVAL ∨ sz % CURRENCY_DONATIONS_INTERVAL ≠ 0 then none
  else
    let votes := (blocks.drop (sz - CURRENCY_DONATIONS_INTERVAL)).map fun bei =>
      bei.bl.flags &&& BLOCK_FLAGS_SUPPRESS_DONATION == 0
    (blocks.getLast?).map fun bei => getDonationsAnountForDay bei.alreadyDonatedCoins votes

def validateDonationsValue (blocks : List BlockExtendedInfo) (donation royalty : UInt64) : Bool :=
  match getRequiredDonationsValueForNextBlock blocks with
  | none => false
  | some expectedDonTotal =>
      let parts := getDonationParts expectedDonTotal
      decide (donation + royalty = expectedDonTotal) &&
        (decide (parts.1 = royalty) && decide (parts.2 = donation))

/-- The donation part of `validate_miner_transaction`: `(donation, royalty)`. -/
def minerDonation (E : Env) (blocks : List BlockExtendedInfo) (b : Block) :
    Option (UInt64 × UInt64) :=
  let h := getBlockHeight b
  if h ≠ 0 ∧ h % CURRENCY_DONATIONS_INTERVAL = 0 then
    match lookforDonation E b.minerTx with
    | none => none
    | some (donation, royalty) =>
        if validateDonationsValue blocks donation royalty then some (donation, royalty) else none
  else some (0, 0)

/-- `validate_miner_transaction`: `(base_reward, donation_total)`. -/
def validateMinerTransaction (E : Env) (blocks : List BlockExtendedInfo) (b : Block)
    (cumulativeBlockSize : ℕ) (fee alreadyGeneratedCoins : UInt64) : Option (UInt64 × UInt64) :=
  match minerDonation E blocks b with
  | none => none
  | some (donation, royalty) =>
      let moneyInUse := getOutsMoneyAmount b.minerTx - (donation + royalty)
      let lastBlocksSizes := getLastNBlocksSizes blocks CURRENCY_REWARD_BLOCKS_WINDOW
      match getBlockReward (median lastBlocksSizes) cumulativeBlockSize alreadyGeneratedCoins with
      | none => none
      | some baseReward =>
          if baseReward + fee < moneyInUse then none
          else if baseReward + fee ≠ moneyInUse then none
          else some (baseReward, royalty + donation)

/-- What an accepted miner transaction pays: the base reward and the fees besides the donation. -/
theorem validateMinerTransaction_some {E : Env} {blocks : List BlockExtendedInfo} {b : Block}
    {size : ℕ} {fee coins baseReward donationTotal : UInt64}
    (h : validateMinerTransaction E blocks b size fee coins = some (baseReward, donationTotal)) :
    ∃ donation royalty, minerDonation E blocks b = some (donation, royalty) ∧
      getBlockReward (median (getLastNBlocksSizes blocks CURRENCY_REWARD_BLOCKS_WINDOW)) size coins =
        some baseReward ∧
      baseReward + fee = getOutsMoneyAmount b.minerTx - (donation + royalty) ∧
      donationTotal = donation + royalty := by
  unfold validateMinerTransaction at h
  cases hdon : minerDonation E blocks b with
  | none => simp [hdon] at h
  | some q =>
    obtain ⟨donation, royalty⟩ := q
    simp only [hdon] at h
    cases hrew : getBlockReward (median (getLastNBlocksSizes blocks CURRENCY_REWARD_BLOCKS_WINDOW))
        size coins with
    | none => simp [hrew] at h
    | some base =>
      simp only [hrew] at h
      split_ifs at h with h1 h2
      obtain ⟨rfl, rfl⟩ := Prod.mk.inj (Option.some.inj h)
      exact ⟨donation, royalty, rfl, rfl, not_not.mp h2, UInt64.add_comm royalty donation⟩

def Node.view (E : Env) (now : ℕ) (n : Node) : ChainView := ⟨E, now, n.blocks, n.isInCheckpointZone⟩

/-- `add_block_as_invalid(bei, h)`; an id that is there already keeps its entry. -/
def addBlockAsInvalid (n : Node) (bei : BlockExtendedInfo) (h : Hash) : Node :=
  match n.invalidBlocks.get h with
  | some _ => n
  | none => { n with invalidBlocks := n.invalidBlocks.set h bei }

/-- `update_next_comulative_size_limit`. -/
def nextCumulativeSizeLimit (blocks : List BlockExtendedInfo) : ℕ :=
  max (median (getLastNBlocksSizes blocks CURRENCY_REWARD_BLOCKS_WINDOW))
    CURRENCY_BLOCK_GRANTED_FULL_REWARD_ZONE * 2

/-- The record of the next block of a chain. -/
def nextBlockExtendedInfo (blocks : List BlockExtendedInfo) (scratchOffset : ℕ) (bl : Block)
    (cumulativeBlockSize : ℕ) (currentDiffic : WideDifficulty) (baseReward donationTotal : UInt64) :
    BlockExtendedInfo where
  bl := bl
  height := blocks.length
  blockCumulativeSize := cumulativeBlockSize
  cumulativeDifficulty := match blocks.getLast? with
    | none => currentDiffic
    | some last => currentDiffic + last.cumulativeDifficulty
  alreadyGeneratedCoins := match blocks.getLast? with
    | none => baseReward
    | some last => last.alreadyGeneratedCoins + baseReward
  alreadyDonatedCoins := match blocks.getLast? with
    | none => donationTotal
    | some last => last.alreadyDonatedCoins + donationTotal
  scratchOffset := scratchOffset

/-- The coins generated up to the end of a block list. -/
def generatedCoins (blocks : List BlockExtendedInfo) : UInt64 :=
  match blocks.getLast? with
  | none => 0
  | some last => last.alreadyGeneratedCoins

/-- The end of `handle_block_to_main_chain`, behind the transaction loop. -/
def finishBlock (E : Env) (now : ℕ) (bvc : BlockVerificationContext) (n : Node) (bl : Block)
    (currentDiffic : WideDifficulty) (st : TxLoop) : Bool × BlockVerificationContext × Node :=
  let id := getBlockHash E bl
  let purged := { n with txs :=
    (purgeBlockDataFromBlockchain (n.view E now) st.state bl st.txProcessedCount).2 }
  match validateMinerTransaction E n.blocks bl st.cumulativeBlockSize st.feeSummary
      (generatedCoins n.blocks) with
  | none => (false, { bvc with verifivationFailed := true }, purged)
  | some (baseReward, donationTotal) =>
      match n.blocksIndex.get id with
      | some _ => (false, { bvc with verifivationFailed := true }, purged)
      | none =>
          let bei := nextBlockExtendedInfo n.blocks n.scratchpad.getScratchpad.length bl
            st.cumulativeBlockSize currentDiffic baseReward donationTotal
          let blocks := n.blocks ++ [bei]
          (true, { bvc with addedToMainChain := true },
            { n with
              blocks, txs := st.state, blocksIndex := n.blocksIndex.set id bei.height,
              scratchpad := n.scratchpad.pushBlockScratchpadData E bl,
              currentBlockCumulSzLimit := nextCumulativeSizeLimit blocks })

/-- The middle of `handle_block_to_main_chain`: the coinbase and the transactions of the block. -/
def addBlockTransactions (E : Env) (now : ℕ) (bvc : BlockVerificationContext) (n : Node)
    (bl : Block) (currentDiffic : WideDifficulty) : Bool × BlockVerificationContext × Node :=
  let id := getBlockHash E bl
  let failed := { bvc with verifivationFailed := true }
  match addTransactionFromBlock E n.txs bl.minerTx (getTransactionHash E bl.minerTx)
      n.blocks.length with
  | .error s => (false, failed, { n with txs := s })
  | .ok s =>
      match processTransactions (n.view E now) bl.txHashes
          ⟨s, 0, 0, getObjectBlobsize bl.minerTx⟩ with
      | .error f =>
          let n' := { n with txs :=
            (purgeBlockDataFromBlockchain (n.view E now) f.state bl f.txProcessedCount).2 }
          (false, failed,
            if f.addAsInvalid then addBlockAsInvalid n' ⟨bl, 0, 0, 0, 0, 0, 0⟩ id else n')
      | .ok st => finishBlock E now bvc n bl currentDiffic st

def handleBlockToMainChain (E : Env) (now : ℕ) (bvc : BlockVerificationContext) (n : Node)
    (bl : Block) : Bool × BlockVerificationContext × Node :=
  let id := getBlockHash E bl
  let failed := { bvc with verifivationFailed := true }
  if bl.prevId ≠ getTopBlockId E n.blocks then (false, bvc, n)
  else
    let r := checkBlockTimestampMain E now n bl
    let n := r.2
    if !r.1 then (false, failed, n)
    else
      let currentDiffic := getDifficultyForNextBlock n.blocks
      if currentDiffic = 0 then (false, bvc, n)
      else
        let proofOfWork := getBlockLonghash E bl n.blocks.length
          (scratchpadAccessor n.scratchpad.getScratchpad)
        if !checkHash proofOfWork currentDiffic then (false, failed, n)
        else
          let zone := n.checkpoints.isInCheckpointZone n.blocks.length
          let n := { n with isInCheckpointZone := zone }
          if zone && !n.checkpoints.checkBlock n.blocks.length id then (false, failed, n)
          else if !prevalidateMinerTransaction bl n.blocks.length then (false, failed, n)
          else addBlockTransactions E now bvc n bl currentDiffic

def popBlockFromBlockchain (E : Env) (now : ℕ) (n : Node) : Bool × Node :=
  if n.blocks.length ≤ 1 then (false, n)
  else
    match n.blocks.getLast? with
    | none => (false, n)
    | some bei =>
        let r := n.scratchpad.popBlockScratchpadData E bei.bl
        let n := { n with scratchpad := r.2 }
        if !r.1 then (false, n)
        else
          let r := purgeBlockDataFromBlockchain (n.view E now) n.txs bei.bl bei.bl.txHashes.length
          let n := { n with txs := r.2 }
          if !r.1 then (false, n)
          else
            let id := getBlockHash E bei.bl
            let had := (n.blocksIndex.get id).isSome
            let n := { n with blocksIndex := n.blocksIndex.erase id }
            if had then (true, { n with blocks := n.blocks.dropLast }) else (false, n)

end Boolberry
