import Mathlib.Algebra.BigOperators.Group.Finset.Defs
import Boolberry.BinaryArchive
import Boolberry.ChainHistory
import Boolberry.HexStrings

/-!
# The wallet

The state of `wallet2` and the way it follows a daemon's main chain:
`process_new_transaction`, `process_new_blockchain_entry`, `detach_blockchain`,
`pull_blocks` and `refresh` of `wallet2.cpp`. A call that throws leaves what it had
changed until then, so it ends in `.error` of the wallet it leaves.
-/

namespace Boolberry
open KeyValue

/-- `account_base`; the spend key of `account_keys` stands beside the keys that scanning reads. -/
structure AccountBase where
  keys : AccountKeys
  spendSecretKey : SecretKey
  creationTimestamp : UInt64
deriving DecidableEq, Repr

structure TransferDetails where
  blockHeight : ℕ
  tx : Transaction
  internalOutputIndex : ℕ
  globalOutputIndex : UInt64
  spent : Bool
  keyImage : KeyImage
deriving DecidableEq, Repr

/-- `transfer_details::amount`, which throws when the index leaves the outputs. -/
def TransferDetails.amount (td : TransferDetails) : Option UInt64 :=
  (td.tx.vout[td.internalOutputIndex]?).map TxOut.amount

structure UnconfirmedTransferDetails where
  tx : Transaction
  change : UInt64
  sentTime : ℕ
  recipient : Blob
  recipientAlias : Blob
deriving DecidableEq, Repr

structure PaymentDetails where
  txHash : Hash
  amount : UInt64
  blockHeight : ℕ
  unlockTime : UInt64
deriving DecidableEq, Repr

structure WalletTransferInfoDetails where
  rcv : List UInt64 := []
  spn : List UInt64 := []
deriving DecidableEq, Repr

def emptyTransaction : Transaction :=
  { version := 0, unlockTime := 0, vin := [], vout := [], extra := [], signatures := [] }

/-- An entry of the transfer history. -/
structure WalletTransferInfo where
  amount : UInt64 := 0
  timestamp : UInt64 := 0
  txHash : Blob := []
  height : ℕ := 0
  unlockTime : UInt64 := 0
  txBlobSize : UInt32 := 0
  paymentId : Blob := []
  destinations : Blob := []
  destinationAlias : Blob := []
  isIncome : Bool := false
  fee : UInt64 := 0
  td : WalletTransferInfoDetails := {}
  tx : Transaction := emptyTransaction
deriving DecidableEq, Repr

structure MoneyTransfer2Details where
  receiveIndices : List ℕ := []
  spentIndices : List ℕ := []
deriving DecidableEq, Repr

/-- `wallet2`. A wallet without the spend key is view-only; it learns the key images of its outputs
from transactions signed elsewhere and keeps them by output key. -/
structure Wallet2 where
  account : AccountBase
  isViewOnly : Bool
  blockchain : List Hash
  unconfirmedTxs : Map Hash UnconfirmedTransferDetails
  transfers : List TransferDetails
  payments : List (Blob × PaymentDetails)
  keyImages : Map KeyImage ℕ
  pendingKeyImages : Map PublicKey KeyImage
  pendingKeyImagesFileContainer : List (PublicKey × KeyImage)
  accountPublicAddress : AccountPublicAddress
  transferHistory : List WalletTransferInfo
  txKeys : Map Hash SecretKey
deriving DecidableEq

/-- The environment of a wallet: `generate_key_image_helper` gives the one-time public key of an
output of ours and its key image. -/
structure WalletEnv extends Env where
  generateKeyImageHelper : AccountBase → PublicKey → ℕ → PublicKey × KeyImage

def nullKeyImage : KeyImage := 0

namespace Wallet2

/-- `wallet2::clear`. The pending key images and the transaction keys are kept. -/
def clear (E : Env) (w : Wallet2) : Wallet2 :=
  { w with
    blockchain := [getBlockHash E generateGenesisBlock]
    transfers := []
    payments := []
    keyImages := ∅
    transferHistory := []
    unconfirmedTxs := ∅ }

/-- The wrapping sum of the changes that wait for confirmation. -/
def unconfirmedChange (w : Wallet2) : UInt64 :=
  UInt64.ofNat (w.unconfirmedTxs.keys.sum fun k =>
    ((w.unconfirmedTxs.get k).map fun u => u.change.toNat).getD 0)

def unspentSum : List TransferDetails → Option UInt64
  | [] => some 0
  | td :: l =>
      if td.spent then unspentSum l
      else td.amount.bind fun a => (unspentSum l).map (a + ·)

/-- `wallet2::balance`, `none` when an amount throws. -/
def balance (w : Wallet2) : Option UInt64 :=
  (unspentSum w.transfers).map (· + w.unconfirmedChange)

end Wallet2

def TX_USER_DATA_TAG_PAYMENT_ID : UInt8 := 0

/-- `get_payment_id_from_user_data`. The length byte is a signed `char`: a negative one asks for
all the rest. -/
def getPaymentIdFromUserData : Blob → Option Blob
  | tag :: n :: l =>
      if tag = TX_USER_DATA_TAG_PAYMENT_ID then
        some (if n < 128 then l.take n.toNat else l)
      else none
  | _ => none

def getPaymentIdFromTxExtra (E : Env) (tx : Transaction) : Option Blob :=
  (parseAndValidateTxExtra E tx).bind fun tei => getPaymentIdFromUserData tei.userDataBlob

/-- `get_tx_fee`, `0` also when the inputs do not cover the outputs or one is of another kind. -/
def getTxFee (tx : Transaction) : UInt64 :=
  if isCoinbase tx then 0
  else
    match getInputsMoneyAmount tx with
    | none => 0
    | some amountIn =>
        if amountIn < getOutsMoneyAmount tx then 0 else amountIn - getOutsMoneyAmount tx

/-- `lookup_acc_outs`: the positions of the outputs that pay the account, and their wrapping sum. -/
def lookupAccOuts (E : Env) (acc : AccountKeys) (txPubKey : PublicKey) :
    ℕ → List TxOut → Option (List ℕ × UInt64)
  | _, [] => some ([], 0)
  | i, o :: l =>
      match o.target with
      | .toKey k =>
          (lookupAccOuts E acc txPubKey (i + 1) l).map fun r =>
            if E.isOutToAcc acc k txPubKey i then (i :: r.1, o.amount + r.2) else r
      | _ => none

/-- How the loop of `fill_transfer_details` over the inputs ends: at the end, at a position beyond the
inputs, which is logged, or at an input of another kind, which throws. -/
inductive FillEnd where
  | complete
  | outOfRange
  | badGet
deriving DecidableEq, Repr

/-- The amounts of the inputs at the given positions. -/
def spentAmounts (vin : List Txin) : List ℕ → List UInt64 × FillEnd
  | [] => ([], .complete)
  | si :: l =>
      match vin[si]? with
      | none => ([], .outOfRange)
      | some (.toKey inp) => (inp.amount :: (spentAmounts vin l).1, (spentAmounts vin l).2)
      | some _ => ([], .badGet)

def receivedAmounts (vout : List TxOut) : List ℕ → List UInt64
  | [] => []
  | ri :: l =>
      match vout[ri]? with
      | none => []
      | some o => o.amount :: receivedAmounts vout l

/-- `fill_transfer_details`; a throw leaves the amounts found so far. -/
def fillTransferDetails (tx : Transaction) (td : MoneyTransfer2Details) :
    Except WalletTransferInfoDetails WalletTransferInfoDetails :=
  match spentAmounts tx.vin td.spentIndices with
  | (spn, .complete) => .ok { spn, rcv := receivedAmounts tx.vout td.receiveIndices }
  | (spn, .outOfRange) => .ok { spn }
  | (spn, .badGet) => .error { spn }

/-- `prepare_wti`; a throw leaves the record half filled. -/
def prepareWti (E : Env) (wti : WalletTransferInfo) (height : ℕ) (timestamp : UInt64)
    (tx : Transaction) (amount : UInt64) (td : MoneyTransfer2Details) :
    Except WalletTransferInfo WalletTransferInfo :=
  let wti := { wti with
    tx, amount, height
    paymentId := match getPaymentIdFromTxExtra E tx with
      | some pid => buffToHexNodelimer pid
      | none => wti.paymentId }
  match fillTransferDetails tx td with
  | .error details => .error { wti with td := details }
  | .ok details => .ok { wti with
      td := details
      timestamp
      fee := if isCoinbase tx then 0 else getTxFee tx
      unlockTime := tx.unlockTime
      txBlobSize := UInt32.ofNat (getObjectBlobsize tx)
      txHash := buffToHexNodelimer (hashBytes (getTransactionHash E tx)) }

namespace Wallet2

/-- `handle_money_received2`. The record is in the history before it is filled. -/
def handleMoneyReceived2 (E : Env) (b : Block) (tx : Transaction) (amount : UInt64)
    (td : MoneyTransfer2Details) (w : Wallet2) : Except Wallet2 Wallet2 :=
  match prepareWti E {} (getBlockHeight b) b.timestamp tx amount td with
  | .error wti => .error { w with transferHistory := w.transferHistory ++ [wti] }
  | .ok wti => .ok { w with transferHistory := w.transferHistory ++ [{ wti with isIncome := true }] }

def handleMoneySpent2 (E : Env) (b : Block) (inTx : Transaction) (amount : UInt64)
    (td : MoneyTransfer2Details) (recipient recipientAlias : Blob) (w : Wallet2) :
    Except Wallet2 Wallet2 :=
  match prepareWti E {} (getBlockHeight b) b.timestamp inTx amount td with
  | .error wti => .error { w with transferHistory := w.transferHistory ++ [wti] }
  | .ok wti => .ok { w with transferHistory := w.transferHistory ++
      [{ wti with isIncome := false, destinations := recipient, destinationAlias := recipientAlias }] }

/-- `process_unconfirmed`: a transaction of ours has arrived in a block, its recipient moves on. -/
def processUnconfirmed (E : Env) (tx : Transaction) (w : Wallet2) : (Blob × Blob) × Wallet2 :=
  match w.unconfirmedTxs.get (getTransactionHash E tx) with
  | none => (([], []), w)
  | some u => ((u.recipient, u.recipientAlias),
      { w with unconfirmedTxs := w.unconfirmedTxs.erase (getTransactionHash E tx) })

def setTransferSpentFlag (transferIndex : ℕ) (spentFlag : Bool) (w : Wallet2) :
    Except Wallet2 Wallet2 :=
  if transferIndex < w.transfers.length then
    .ok { w with transfers := w.transfers.modify transferIndex fun td => { td with spent := spentFlag } }
  else .error w

/-- The key image of output `o` with key `key`: looked up by a view-only wallet, null when it is not
known yet, and computed otherwise, where another key than the output's own throws. -/
def outputKeyImage (E : WalletEnv) (w : Wallet2) (txPubKey : PublicKey) (o : ℕ) (key : PublicKey) :
    Option KeyImage :=
  if w.isViewOnly then some ((w.pendingKeyImages.get key).getD nullKeyImage)
  else
    let r := E.generateKeyImageHelper w.account txPubKey o
    if r.1 = key then some r.2 else none

/-- A new element of `m_transfers`, entered in `m_key_images` when its image is known. -/
def addTransfer (td : TransferDetails) (w : Wallet2) : Wallet2 :=
  { w with
    transfers := w.transfers ++ [td]
    keyImages := if td.keyImage = nullKeyImage then w.keyImages
      else w.keyImages.set td.keyImage w.transfers.length }

/-- `m_key_images.find`, not asked for a null image. -/
def findKnown (w : Wallet2) (ki : KeyImage) : Option ℕ :=
  if ki = nullKeyImage then none else w.keyImages.get ki

/-- What `process_new_transaction` carries over the outputs and inputs: `tx_money_got_in_outs`,
`tx_money_spent_in_ins`, the positions found and the wallet. -/
structure TxScan where
  moneyGot : UInt64
  moneySpent : UInt64
  mtd : MoneyTransfer2Details
  wallet : Wallet2

/-- One output of ours. An image seen before means it can never be spent, and it is skipped. -/
def receiveOut (E : WalletEnv) (tx : Transaction) (txPubKey : PublicKey) (height : ℕ)
    (oIndexes : List UInt64) (s : TxScan) (o : ℕ) : Except Wallet2 TxScan :=
  match tx.vout[o]? with
  | some ⟨amount, .toKey otk⟩ =>
      match outputKeyImage E s.wallet txPubKey o otk.key with
      | none => .error s.wallet
      | some ki =>
          match s.wallet.findKnown ki with
          | some p =>
              if s.wallet.transfers.length ≤ p ∨ s.moneyGot < amount then .error s.wallet
              else .ok { s with moneyGot := s.moneyGot - amount }
          | none => .ok { s with
              mtd := { s.mtd with receiveIndices := s.mtd.receiveIndices ++ [o] }
              wallet := s.wallet.addTransfer
                { blockHeight := height, tx, internalOutputIndex := o
                  globalOutputIndex := oIndexes.getD o 0, spent := false, keyImage := ki } }
  | _ => .error s.wallet

/-- The outputs of ours, whose global indexes the daemon is asked for; `none` stands for a call that
fails or a status other than OK. -/
def receiveMoney (E : WalletEnv) (oIndexes : Option (List UInt64)) (tx : Transaction)
    (txPubKey : PublicKey) (height : ℕ) (outs : List ℕ) (money : UInt64) (w : Wallet2) :
    Except Wallet2 TxScan :=
  if outs ≠ [] ∧ money ≠ 0 then
    match oIndexes with
    | none => .error w
    | some l =>
        if l.length ≠ tx.vout.length then .error w
        else outs.foldlM (receiveOut E tx txPubKey height l) ⟨money, 0, {}, w⟩
  else .ok ⟨money, 0, {}, w⟩

/-- The inputs that spend an output of ours; `i` counts the `txin_to_key` inputs only. -/
def spendInputs : ℕ → List TxinToKey → TxScan → Except Wallet2 TxScan
  | _, [], s => .ok s
  | i, intk :: l, s =>
      match s.wallet.keyImages.get intk.kImage with
      | none => spendInputs (i + 1) l s
      | some p =>
          match s.wallet.setTransferSpentFlag p true with
          | .error w => .error w
          | .ok w => spendInputs (i + 1) l { s with
              moneySpent := s.moneySpent + intk.amount
              mtd := { s.mtd with spentIndices := s.mtd.spentIndices ++ [i] }
              wallet := w }

/-- A payment with an id, when more came in than went out. -/
def recordPayment (E : Env) (tx : Transaction) (height : ℕ) (s : TxScan) : Wallet2 :=
  match getPaymentIdFromTxExtra E tx with
  | none => s.wallet
  | some paymentId =>
      if s.moneyGot ≠ 0 ∧ s.moneySpent < s.moneyGot ∧ paymentId ≠ [] then
        { s.wallet with payments := s.wallet.payments ++ [(paymentId,
          { txHash := getTransactionHash E tx, amount := s.moneyGot - s.moneySpent
            blockHeight := height, unlockTime := tx.unlockTime })] }
      else s.wallet

/-- The history entries of a transaction that spent `spent` and brought `got`. -/
def recordHistory (E : Env) (b : Block) (tx : Transaction) (recipient recipientAlias : Blob)
    (got spent : UInt64) (mtd : MoneyTransfer2Details) (w : Wallet2) : Except Wallet2 Wallet2 :=
  if spent ≠ 0 then
    if got < spent then handleMoneySpent2 E b tx (spent - got) mtd recipient recipientAlias w
    else do
      -- outputs of different wallets in one transaction
      let w ← handleMoneySpent2 E b tx spent mtd recipient recipientAlias w
      handleMoneyReceived2 E b tx got mtd w
  else if got ≠ 0 then handleMoneyReceived2 E b tx got mtd w
  else .ok w

def processNewTransaction (E : WalletEnv) (oIndexes : Option (List UInt64)) (tx : Transaction)
    (height : ℕ) (b : Block) (w : Wallet2) : Except Wallet2 Wallet2 :=
  let u := processUnconfirmed E.toEnv tx w
  match parseAndValidateTxExtra E.toEnv tx with
  | none => .error u.2
  | some tei =>
      match lookupAccOuts E.toEnv w.account.keys tei.txPubKey 0 tx.vout with
      | none => .error u.2
      | some (outs, money) => do
          let s ← receiveMoney E oIndexes tx tei.txPubKey height outs money u.2
          let s ← spendInputs 0 (toKeyInputs tx) s
          recordHistory E.toEnv b tx u.1.1 u.1.2 s.moneyGot s.moneySpent s.mtd
            (recordPayment E.toEnv tx height s)

end Wallet2

/-- A block of the daemon's answer: its blobs, and what the daemon answers when it is asked for the
global output indexes of the coinbase transaction (`0`) and of the transactions after it. -/
structure ServedBlock where
  block : Blob
  txs : List Blob
  oIndexes : ℕ → Option (List UInt64)

def COMMAND_RPC_GET_BLOCKS_FAST_MAX_COUNT : ℕ := 1000

/-- A day, for a clock that was set wrong when the wallet was made. -/
def CREATETIME_MARGIN : UInt64 := 60 * 60 * 24

namespace Wallet2

/-- The transactions of a block from the `i`-th on. -/
def processTransactions (E : WalletEnv) (oIndexes : ℕ → Option (List UInt64)) (height : ℕ) (b : Block) :
    ℕ → List Blob → Wallet2 → Except Wallet2 Wallet2
  | _, [], w => .ok w
  | i, txBlob :: l, w =>
      match parseAndValidateTxFromBlob txBlob with
      | none => .error w
      | some tx => do
          let w ← processNewTransaction E (oIndexes i) tx height b w
          processTransactions E oIndexes height b (i + 1) l w

/-- Blocks from before the wallet was made are not looked into. -/
def isScanned (w : Wallet2) (b : Block) : Bool :=
  decide (w.account.creationTimestamp < b.timestamp + CREATETIME_MARGIN)

/-- The coinbase and the transactions of a block. -/
def scanBlock (E : WalletEnv) (sb : ServedBlock) (b : Block) (height : ℕ) (w : Wallet2) :
    Except Wallet2 Wallet2 :=
  if w.isScanned b then do
    let w ← processNewTransaction E (sb.oIndexes 0) b.minerTx height b w
    processTransactions E sb.oIndexes height b 1 sb.txs w
  else .ok w

/-- `process_new_blockchain_entry`. The block is recorded as seen at the end. -/
def processNewBlockchainEntry (E : WalletEnv) (b : Block) (sb : ServedBlock) (blId : Hash)
    (height : ℕ) (w : Wallet2) : Except Wallet2 Wallet2 :=
  if height ≠ w.blockchain.length then .error w
  else do
    let w ← scanBlock E sb b height w
    .ok { w with blockchain := w.blockchain ++ [blId] }

/-- The loop of `detach_blockchain` over the transfers it removes. -/
def detachKeyImages : List TransferDetails → Wallet2 → Except Wallet2 Wallet2
  | [], w => .ok w
  | td :: l, w =>
      match w.keyImages.get td.keyImage with
      | none => .error w
      | some _ => detachKeyImages l { w with keyImages := w.keyImages.erase td.keyImage }

/-- The position of the first transfer received at `height` or above. -/
def detachStart (height : ℕ) (w : Wallet2) : ℕ :=
  w.transfers.findIdx fun td => decide (height ≤ td.blockHeight)

/-- `detach_blockchain`. The history and the flags of the transfers that stay are not looked at. -/
def detachBlockchain (height : ℕ) (w : Wallet2) : Except Wallet2 Wallet2 := do
  let w' ← detachKeyImages (w.transfers.drop (w.detachStart height)) w
  .ok { w' with
    transfers := w'.transfers.take (w.detachStart height)
    blockchain := w'.blockchain.take height
    payments := w'.payments.filter fun p => decide (p.2.blockHeight < height) }

/-- One round of `pull_blocks`: the block `sb` at height `index` of an answer that starts at `start`,
and whether it counts as added. -/
def pullBlock (E : WalletEnv) (start index : ℕ) (sb : ServedBlock) (w : Wallet2) :
    Except Wallet2 (Bool × Wallet2) :=
  match parseAndValidateBlockFromBlob sb.block with
  | none => .error w
  | some bl =>
      let blId := getBlockHash E.toEnv bl
      match w.blockchain[index]? with
      | none => do
          let w ← processNewBlockchainEntry E bl sb blId index w
          .ok (true, w)
      | some id =>
          if blId = id then .ok (false, w)
          else if index = start then .error w
          else do
            -- a split: the block that replaces the first detached one is not counted
            let w ← detachBlockchain index w
            let w ← processNewBlockchainEntry E bl sb blId index w
            .ok (false, w)

/-- The loop of `pull_blocks`, with the count of added blocks. -/
def pullBlocksGo (E : WalletEnv) (start : ℕ) :
    ℕ → List ServedBlock → ℕ → Wallet2 → Except Wallet2 (ℕ × Wallet2)
  | _, [], added, w => .ok (added, w)
  | index, sb :: l, added, w => do
      let r ← pullBlock E start index sb w
      pullBlocksGo E start (index + 1) l (if r.1 then added + 1 else added) r.2

end Wallet2

/-- `call_COMMAND_RPC_GET_BLOCKS_FAST`: from a short chain history the height of the first block and the
blocks from there on; `none` when the call fails or the status is not OK. -/
abbrev GetBlocksFast : Type := List Hash → Option (ℕ × List ServedBlock)

namespace Wallet2

/-- `pull_blocks` with `blocks_added`. -/
def pullBlocks (E : WalletEnv) (getBlocksFast : GetBlocksFast) (w : Wallet2) :
    Except Wallet2 (ℕ × Wallet2) :=
  match getBlocksFast (walletShortChainHistory w.blockchain) with
  | none => .error w
  | some (start, blocks) =>
      if w.blockchain.length ≤ start then .error w
      else pullBlocksGo E start start blocks 0 w

/-- The loop of `refresh` over the calls of `pull_blocks`, each with what the daemon answers it. A
call that throws is tried again, three times in all; `none` when the calls run out first. -/
def refresh (E : WalletEnv) : ℕ → List GetBlocksFast → Wallet2 → Option (Except Wallet2 Wallet2)
  | _, [], _ => none
  | tryCount, getBlocksFast :: l, w =>
      match pullBlocks E getBlocksFast w with
      | .ok (added, w) => if added = 0 then some (.ok w) else refresh E tryCount l w
      | .error w => if tryCount < 3 then refresh E (tryCount + 1) l w else some (.error w)

end Wallet2

/-- One-time keys and key images of the sample wallet are simple functions of the transaction's key and
the output's position. -/
def sampleOutKey (acc : AccountKeys) (txPubKey : PublicKey) (o : ℕ) : PublicKey :=
  acc.accountAddress.spendPublicKey + txPubKey * 16 + BitVec.ofNat 256 o

def sampleImage (key : PublicKey) : KeyImage := key * 2 + 1

def sampleWalletEnv : WalletEnv :=
  { sampleEnv with
    isOutToAcc := fun acc k txPubKey o => decide (k.key = sampleOutKey acc txPubKey o)
    generateKeyImageHelper := fun account txPubKey o =>
      (sampleOutKey account.keys txPubKey o, sampleImage (sampleOutKey account.keys txPubKey o)) }

def sampleAccount : AccountBase := ⟨⟨⟨7, 0⟩, 0⟩, 1, 0⟩

/-- A wallet with nothing in it but genesis. -/
def sampleWallet (isViewOnly : Bool) : Wallet2 :=
  Wallet2.clear sampleWalletEnv.toEnv
    { account := sampleAccount, isViewOnly, blockchain := [], unconfirmedTxs := ∅, transfers := []
      payments := [], keyImages := ∅, pendingKeyImages := ∅, pendingKeyImagesFileContainer := []
      accountPublicAddress := sampleAccount.keys.accountAddress, transferHistory := [], txKeys := ∅ }

/-- A transaction with its public key in `extra`. -/
def sampleTx (key : PublicKey) (vin : List Txin) (vout : List TxOut) : Transaction where
  version := 1
  unlockTime := 0
  vin := vin
  vout := vout
  extra := 1 :: hashBytes key
  signatures := vin.map fun i => List.replicate (getSignatureSize i) 0

/-- The only output of a transaction with the public key `key`, which pays the sample account. -/
def sampleOut (amount : UInt64) (key : PublicKey) : TxOut :=
  ⟨amount, .toKey ⟨sampleOutKey sampleAccount.keys key 0, 0⟩⟩

/-- The input that spends it. -/
def sampleIn (amount : UInt64) (key : PublicKey) : Txin :=
  .toKey ⟨amount, [0], sampleImage (sampleOutKey sampleAccount.keys key 0)⟩

/-- A block served with its transactions; its coinbase, with the block's height as public key, has the
outputs `vout`. -/
def sampleServed (height : ℕ) (nonce : UInt64) (vout : List TxOut) (txs : List Transaction) :
    ServedBlock :=
  let b : Block :=
    { majorVersion := 1, minorVersion := 0, timestamp := 0, prevId := nullHash, nonce, flags := 0
      minerTx := sampleTx (BitVec.ofNat 256 height) [.gen (UInt64.ofNat height)] vout
      txHashes := txs.map (getTransactionHash sampleWalletEnv.toEnv) }
  { block := (blockToBlob b).getD []
    txs := txs.map fun t => (txToBlob t).getD []
    oIndexes := fun _ => some [0] }

def sampleGenesis : ServedBlock where
  block := (blockToBlob generateGenesisBlock).getD []
  txs := []
  oIndexes := fun _ => none

end Boolberry
