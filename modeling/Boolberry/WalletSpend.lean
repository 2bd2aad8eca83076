import Boolberry.Lib.Aborting
import Boolberry.Wallet

/-!
# Spending from the wallet

`transfer`, `sweep_below`, `submit_transfer` and `cancel_transfer` of `wallet2`, with the
selection of outputs and `finalize_transaction` they share. As in the scan, a call that
throws ends in `.error` of the wallet it leaves.
-/

namespace Boolberry
open KeyValue Aborting

def DEFAULT_TX_SPENDABLE_AGE : ℕ := 10

/-- `account_public_address`: the base and the flag. -/
structure DestinationAddress extends AccountPublicAddress where
  isSwapAddress : Bool := false
deriving DecidableEq, Repr

structure TxDestinationEntry where
  amount : UInt64
  addr : DestinationAddress
deriving DecidableEq, Repr

/-- `tx_destination_entry()`. -/
def emptyDestination : TxDestinationEntry := ⟨0, { spendPublicKey := 0, viewPublicKey := 0 }⟩

/-- An input to make: the outputs of its ring, one of them real, and the transfer it spends. -/
structure TxSourceEntry where
  outputs : List (UInt64 × PublicKey)
  realOutput : ℕ
  realOutTxKey : PublicKey
  realOutputInTxIndex : ℕ
  amount : UInt64
  transferIndex : ℕ
deriving DecidableEq, Repr

structure CreateTxArg where
  spendPubKey : PublicKey
  sources : List TxSourceEntry
  splittedDsts : List TxDestinationEntry
  extra : Blob
  unlockTime : UInt64
  txOutsAttr : UInt8
  changeAmount : UInt64
  recipients : List DestinationAddress
  dust : UInt64
deriving DecidableEq, Repr

structure Keypair where
  pub : PublicKey
  sec : SecretKey
deriving DecidableEq, Repr

/-- A transaction made, with the key images of its change outputs by their positions. -/
structure CreateTxRes where
  tx : Transaction
  txkey : Keypair
  outsKeyImages : List (ℕ × KeyImage)
deriving DecidableEq, Repr

/-- A status of the daemon's answers. -/
inductive RpcStatus where
  | ok
  | busy
  | other (text : Blob)
deriving DecidableEq, Repr

/-- What one call meets outside the wallet: the clock, the daemon's answers and the transactions that
`construct_tx` makes with its random keys, numbered by its calls. `none` is a request that fails or
has another status than OK; for `sendrawtransaction` the code looks at the two separately. -/
structure SpendEnv where
  now : ℕ
  getInfo : Option UInt64
  getRandomOuts : Option (List (List (UInt64 × PublicKey)))
  sendRawTx : Bool × RpcStatus
  getAliasesByAddress : Blob → Option Blob
  accountAddressAsStr : AccountPublicAddress → Blob
  constructTx : ℕ → AccountBase → CreateTxArg → Option CreateTxRes

/-- A call of one of the two handlers of `decompose_amount_into_digits`. -/
inductive AmountPart where
  | chunk (amount : UInt64)
  | dust (amount : UInt64)
deriving DecidableEq, Repr

def AmountPart.amount : AmountPart → UInt64
  | .chunk a => a
  | .dust a => a

def dustPart (handled : Bool) (dust : UInt64) : List AmountPart :=
  if handled = false ∧ dust ≠ 0 then [.dust dust] else []

/-- The loop of `decompose_amount_into_digits`; a 64-bit amount has at most 20 digits. -/
def decomposeDigits (dustThreshold : UInt64) : ℕ → UInt64 → UInt64 → UInt64 → Bool → List AmountPart
  | 0, _, _, dust, handled => dustPart handled dust
  | n + 1, amount, order, dust, handled =>
      if amount = 0 then dustPart handled dust
      else
        let chunk := amount % 10 * order
        if dust + chunk ≤ dustThreshold then
          decomposeDigits dustThreshold n (amount / 10) (order * 10) (dust + chunk) handled
        else
          dustPart handled dust ++ (if chunk ≠ 0 then [.chunk chunk] else []) ++
            decomposeDigits dustThreshold n (amount / 10) (order * 10) dust (handled || dust != 0)

def decomposeAmountIntoDigits (amount dustThreshold : UInt64) : List AmountPart :=
  decomposeDigits dustThreshold 20 amount 1 0 false

/-- A split strategy: destinations, change and dust threshold to outputs and dust. -/
abbrev DestinationSplitStrategy : Type :=
  List TxDestinationEntry → TxDestinationEntry → UInt64 → List TxDestinationEntry × UInt64

def digitSplitStrategy : DestinationSplitStrategy := fun dsts changeDst dustThreshold =>
  let change := decomposeAmountIntoDigits changeDst.amount dustThreshold
  (dsts.flatMap (fun de => (decomposeAmountIntoDigits de.amount dustThreshold).map fun p =>
      ⟨p.amount, de.addr⟩) ++
    change.filterMap fun p => match p with
      | .chunk a => some ⟨a, changeDst.addr⟩
      | .dust _ => none,
    change.foldl (fun dust p => match p with
      | .chunk _ => dust
      | .dust a => a) 0)

structure TxDustPolicy where
  dustThreshold : UInt64 := 0
  addToFee : Bool := true
  addrForDust : DestinationAddress := emptyDestination.addr
deriving DecidableEq, Repr

/-- The outputs with the dust, `none` when the dust is above the threshold, which throws. -/
def splitDestinations (strategy : DestinationSplitStrategy) (policy : TxDustPolicy)
    (dsts : List TxDestinationEntry) (changeDst : TxDestinationEntry) :
    Option (List TxDestinationEntry × UInt64) :=
  let r := strategy dsts changeDst policy.dustThreshold
  if policy.dustThreshold < r.2 then none
  else some (if r.2 ≠ 0 ∧ policy.addToFee = false then r.1 ++ [⟨r.2, policy.addrForDust⟩] else r.1, r.2)

/-- `is_mixattr_applicable_for_fake_outs_counter`. -/
def isMixattrApplicable (mixAttr : UInt8) (fakeAttrCount : ℕ) : Bool :=
  if 1 < mixAttr then decide (mixAttr.toNat ≤ fakeAttrCount + 1)
  else if mixAttr = CURRENCY_TO_KEY_OUT_FORCED_NO_MIX then decide (fakeAttrCount = 0)
  else true

/-- `found_free_amounts`: positions by amount, the amounts ascending. -/
abbrev FreeAmounts : Type := List (UInt64 × List ℕ)

def FreeAmounts.pushBack (amount : UInt64) (i : ℕ) : FreeAmounts → FreeAmounts
  | [] => [(amount, [i])]
  | (a, l) :: free =>
      if amount < a then (amount, [i]) :: (a, l) :: free
      else if amount = a then (a, l ++ [i]) :: free
      else (a, l) :: FreeAmounts.pushBack amount i free

/-- `lower_bound(amount)` with the last of its positions. -/
def FreeAmounts.lowerBound (amount : UInt64) (free : FreeAmounts) : Option (UInt64 × ℕ) :=
  (free.find? fun e => decide (amount ≤ e.1)).bind fun e => e.2.getLast?.map fun i => (e.1, i)

/-- Without the last position of the largest amount. -/
def FreeAmounts.popBack (free : FreeAmounts) : FreeAmounts :=
  match free.getLast? with
  | none => []
  | some (a, l) => free.dropLast ++ if l.dropLast = [] then [] else [(a, l.dropLast)]

/-- The loop of `select_indices_for_transfer`. Every round but the last takes one position off. -/
def selectIndicesGo (neededMoney : UInt64) :
    ℕ → FreeAmounts → UInt64 → List ℕ → UInt64 × List ℕ
  | 0, _, foundMoney, selected => (foundMoney, selected)
  | n + 1, free, foundMoney, selected =>
      if foundMoney < neededMoney then
        match free.lowerBound (neededMoney - foundMoney) with
        | some (a, i) => (foundMoney + a, selected ++ [i])
        | none =>
            match free.getLast? with
            | none => (foundMoney, selected)
            | some (a, l) =>
                match l.getLast? with
                | none => (0, selected)
                | some i =>
                    selectIndicesGo neededMoney n free.popBack (foundMoney + a) (selected ++ [i])
      else (foundMoney, selected)

def FreeAmounts.indices (free : FreeAmounts) : List ℕ := free.flatMap Prod.snd

/-- `select_indices_for_transfer`: the money found and the positions. -/
def selectIndicesForTransfer (free : FreeAmounts) (neededMoney : UInt64) : UInt64 × List ℕ :=
  selectIndicesGo neededMoney free.indices.length free 0 []

namespace Wallet2

def isTransferUnlocked (now : ℕ) (w : Wallet2) (td : TransferDetails) : Bool :=
  isTxSpendtimeUnlocked now w.blockchain.length td.tx.unlockTime &&
    decide (td.blockHeight + DEFAULT_TX_SPENDABLE_AGE ≤ w.blockchain.length)

/-- The amount of a transfer that may be spent now and is below `limit`; `none` inside says that it may
not be, `none` outside that its output is of another kind, which throws. -/
def spendableAmount (now : ℕ) (w : Wallet2) (fakeOutsCount : ℕ) (below : UInt64 → Bool)
    (td : TransferDetails) : Option (Option UInt64) :=
  if td.spent || !w.isTransferUnlocked now td then some none
  else
    match td.tx.vout[td.internalOutputIndex]? with
    | none => none
    | some ⟨amount, target⟩ =>
        if below amount then
          match target with
          | .toKey otk => some (if isMixattrApplicable otk.mixAttr fakeOutsCount then some amount else none)
          | _ => none
        else some none

/-- The positions that may be spent; a position beyond the transfers throws. -/
def allowedIndices (w : Wallet2) (outsToSpend : List ℕ) : Option (List ℕ) :=
  if outsToSpend = [] then some (List.range w.transfers.length)
  else if outsToSpend.all fun i => decide (i < w.transfers.length) then some outsToSpend else none

/-- The loop of `select_transfers` that collects the free amounts. -/
def collectFree (now : ℕ) (w : Wallet2) (fakeOutsCount : ℕ) : List ℕ → FreeAmounts → Option FreeAmounts
  | [], free => some free
  | i :: l, free =>
      match (w.transfers[i]?).bind (w.spendableAmount now fakeOutsCount fun _ => true) with
      | none => none
      | some none => collectFree now w fakeOutsCount l free
      | some (some amount) => collectFree now w fakeOutsCount l (free.pushBack amount i)

/-- `select_transfers`: the money found and the positions; `none` when it throws. -/
def selectTransfers (now : ℕ) (neededMoney : UInt64) (fakeOutsCount : ℕ) (outsToSpend : List ℕ)
    (w : Wallet2) : Option (UInt64 × List ℕ) :=
  (w.allowedIndices outsToSpend).bind fun l =>
    (w.collectFree now fakeOutsCount l []).map fun free => selectIndicesForTransfer free neededMoney

/-- `outs` of the daemon's answer to `getrandom_outs`, when others are to be mixed in. -/
def randomOuts (x : SpendEnv) (fakeOutsCount count : ℕ) : Option (List (List (UInt64 × PublicKey))) :=
  if fakeOutsCount = 0 then some []
  else
    match x.getRandomOuts with
    | none => none
    | some outs =>
        if outs.length ≠ count ∨ ∃ l ∈ outs, l.length < fakeOutsCount then none else some outs

/-- The input that spends transfer `i`, the real output in its place among the `others`. The key of a
transfer's transaction was found when it was received. -/
def makeSource (E : WalletEnv) (w : Wallet2) (fakeOutsCount : ℕ) (others : List (UInt64 × PublicKey))
    (i : ℕ) : Option TxSourceEntry :=
  match w.transfers[i]? with
  | none => none
  | some td =>
      match td.tx.vout[td.internalOutputIndex]? with
      | some ⟨amount, .toKey otk⟩ =>
          let mixed := ((others.mergeSort fun a b => decide (a.1 ≤ b.1)).filter fun o =>
            decide (td.globalOutputIndex ≠ o.1)).take fakeOutsCount
          let before := mixed.takeWhile fun o => decide (o.1 < td.globalOutputIndex)
          some
            { outputs := before ++ (td.globalOutputIndex, otk.key) :: mixed.drop before.length
              realOutput := before.length
              realOutTxKey := ((parseAndValidateTxExtra E.toEnv td.tx).map TxExtraInfo.txPubKey).getD nullPkey
              realOutputInTxIndex := td.internalOutputIndex
              amount
              transferIndex := i }
      | _ => none

/-- The inputs from the `k`-th on. -/
def makeSources (E : WalletEnv) (w : Wallet2) (fakeOutsCount : ℕ)
    (outs : List (List (UInt64 × PublicKey))) : ℕ → List ℕ → Option (List TxSourceEntry)
  | _, [] => some []
  | k, i :: l =>
      (makeSource E w fakeOutsCount (outs.getD k []) i).bind fun src =>
        (makeSources E w fakeOutsCount outs (k + 1) l).map (src :: ·)

/-- `set_transfer_spent_flag` for every source. -/
def setSpentFlags (spentFlag : Bool) : List ℕ → Wallet2 → Except Wallet2 Wallet2
  | [], w => .ok w
  | i :: l, w =>
      match w.setTransferSpentFlag i spentFlag with
      | .error w => .error w
      | .ok w => setSpentFlags spentFlag l w

/-- The sources' positions. -/
def spentIndices (sources : List TxSourceEntry) : List ℕ := sources.map TxSourceEntry.transferIndex

/-- The transaction has one input for each source, with the source's ring. -/
def matchesSources : List TxSourceEntry → List Txin → Bool
  | [], [] => true
  | src :: sources, .toKey inp :: vin =>
      decide (src.outputs.map Prod.fst = relativeOutputOffsetsToAbsolute inp.keyOffsets) &&
        matchesSources sources vin
  | _, _ => false

/-- The spent flags around `sendrawtransaction`: an answer other than OK, or none, releases the sources. -/
def relayTransaction (x : SpendEnv) (sources : List ℕ) (doNotRelay : Bool) (w : Wallet2) :
    Except Wallet2 Wallet2 :=
  if doNotRelay then setSpentFlags true sources w
  else
    match setSpentFlags (decide (x.sendRawTx.2 = .ok)) sources w with
    | .error w => .error w
    | .ok w => if x.sendRawTx = (true, .ok) then .ok w else .error w

/-- `add_sent_unconfirmed_tx` and the transaction's key. -/
def recordSent (E : WalletEnv) (x : SpendEnv) (arg : CreateTxArg) (res : CreateTxRes) (w : Wallet2) :
    Wallet2 :=
  let txHash := getTransactionHash E.toEnv res.tx
  let recipient := List.intercalate [44, 32] (arg.recipients.map fun a =>
    x.accountAddressAsStr a.toAccountPublicAddress)
  { w with
    unconfirmedTxs := w.unconfirmedTxs.set txHash
      { tx := res.tx, change := arg.changeAmount, sentTime := x.now, recipient
        recipientAlias := (x.getAliasesByAddress recipient).getD [] }
    txKeys := w.txKeys.set txHash res.txkey.sec }

/-- The keys of the change outputs with their images. -/
def changeImages (tx : Transaction) : List (ℕ × KeyImage) → Option (List (PublicKey × KeyImage))
  | [] => some []
  | p :: l =>
      match tx.vout[p.1]? with
      | some ⟨_, .toKey otk⟩ => (changeImages tx l).map ((otk.key, p.2) :: ·)
      | _ => none

/-- The keys of the spent outputs and the transfers they belong to, with their images. -/
def sourceImages : List TxSourceEntry → List Txin → Option (List (PublicKey × ℕ × KeyImage))
  | [], [] => some []
  | src :: sources, .toKey inp :: vin =>
      match src.outputs[src.realOutput]? with
      | some out => (sourceImages sources vin).map ((out.2, src.transferIndex, inp.kImage) :: ·)
      | none => none
  | _, _ => none

/-- An image that is kept until its output arrives; the first one for a key stays. -/
def addPendingKeyImage (w : Wallet2) (p : PublicKey × KeyImage) : Wallet2 :=
  if (w.pendingKeyImages.get p.1).isSome then w
  else { w with
    pendingKeyImages := w.pendingKeyImages.set p.1 p.2
    pendingKeyImagesFileContainer := w.pendingKeyImagesFileContainer ++ [p] }

/-- The image of a transfer, whatever it was before. -/
def setTransferKeyImage (p : ℕ × KeyImage) (w : Wallet2) : Except Wallet2 Wallet2 :=
  if p.1 < w.transfers.length then
    .ok { w with
      transfers := w.transfers.modify p.1 fun td => { td with keyImage := p.2 }
      keyImages := w.keyImages.set p.2 p.1 }
  else .error w

def setTransferKeyImages : List (ℕ × KeyImage) → Wallet2 → Except Wallet2 Wallet2
  | [], w => .ok w
  | p :: l, w =>
      match setTransferKeyImage p w with
      | .error w => .error w
      | .ok w => setTransferKeyImages l w

/-- What a view-only wallet learns from a transaction signed elsewhere. -/
def learnKeyImages (arg : CreateTxArg) (res : CreateTxRes) (w : Wallet2) : Except Wallet2 Wallet2 :=
  if w.isViewOnly then
    match changeImages res.tx res.outsKeyImages, sourceImages arg.sources res.tx.vin with
    | some change, some spent =>
        setTransferKeyImages (spent.map Prod.snd)
          ((change ++ spent.map fun p => (p.1, p.2.2)).foldl addPendingKeyImage w)
    | _, _ => .error w
  else .ok w

def finalizeTransaction (E : WalletEnv) (x : SpendEnv) (arg : CreateTxArg) (res : CreateTxRes)
    (doNotRelay : Bool) (w : Wallet2) : Except Wallet2 Wallet2 :=
  if CURRENCY_MAX_TRANSACTION_BLOB_SIZE ≤ getObjectBlobsize res.tx ∨
      (w.txKeys.get (getTransactionHash E.toEnv res.tx)).isSome ∨
      matchesSources arg.sources res.tx.vin = false then .error w
  else
    match relayTransaction x (spentIndices arg.sources) doNotRelay w with
    | .error w => .error w
    | .ok w => learnKeyImages arg res (recordSent E x arg res w)

end Wallet2

/-- The parameters of `transfer`. -/
structure TransferRequest where
  dsts : List TxDestinationEntry
  fakeOutputsCount : ℕ
  unlockTime : UInt64
  fee : UInt64
  extra : Blob
  splitStrategy : DestinationSplitStrategy
  dustPolicy : TxDustPolicy
  txOutsAttr : UInt8
  doNotRelay : Bool
  outsToSpend : List ℕ

/-- `SWAP_BLOCK_TS_MEDIAN_MAX_ALLOWED`. -/
def SWAP_BLOCK_TS_MEDIAN_MAX_ALLOWED : UInt64 :=
  1564488000 - UInt64.ofNat (BLOCKCHAIN_TIMESTAMP_CHECK_WINDOW * DIFFICULTY_TARGET / 2)

/-- `check_swap_tx`; `none` when it throws. -/
def checkSwapTx (x : SpendEnv) (dsts : List TxDestinationEntry) : Option Bool :=
  if dsts.any fun d => d.addr.isSwapAddress then
    x.getInfo.map fun median => decide (median < SWAP_BLOCK_TS_MEDIAN_MAX_ALLOWED)
  else some true

/-- The fee and the amounts; an amount of zero and a sum beyond 64 bits throw. -/
def neededMoney : UInt64 → List TxDestinationEntry → Option UInt64
  | money, [] => some money
  | money, d :: l =>
      if d.amount = 0 ∨ money + d.amount < d.amount then none else neededMoney (money + d.amount) l

/-- What `relay_blob` holds after a call: a transaction to sign elsewhere, or a signed one. -/
inductive RelayBlob where
  | unsigned (arg : CreateTxArg)
  | signed (tx : Transaction)
deriving DecidableEq, Repr

namespace Wallet2

/-- `transfer` up to its first change: the positions selected and the transaction to make; `none` when
it throws. -/
def prepareTransfer (E : WalletEnv) (x : SpendEnv) (r : TransferRequest) (w : Wallet2) :
    Option (List ℕ × CreateTxArg) := do
  guard (r.dsts ≠ [] ∧ checkSwapTx x r.dsts = some true)
  let needed ← neededMoney r.fee r.dsts
  let (found, selected) ← w.selectTransfers x.now needed r.fakeOutputsCount r.outsToSpend
  guard (needed ≤ found)
  let outs ← randomOuts x r.fakeOutputsCount selected.length
  let sources ← makeSources E w r.fakeOutputsCount outs 0 selected
  let changeDst : TxDestinationEntry :=
    if needed < found then ⟨found - needed, { toAccountPublicAddress := w.account.keys.accountAddress }⟩
    else emptyDestination
  let (splittedDsts, dust) ← splitDestinations r.splitStrategy r.dustPolicy r.dsts changeDst
  return (selected,
    { spendPubKey := w.account.keys.accountAddress.spendPublicKey, sources, splittedDsts
      extra := r.extra, unlockTime := r.unlockTime, txOutsAttr := r.txOutsAttr
      changeAmount := changeDst.amount, recipients := r.dsts.map TxDestinationEntry.addr, dust })

/-- `transfer`. A view-only wallet marks the outputs and gives the transaction out unsigned. -/
def transfer (E : WalletEnv) (x : SpendEnv) (r : TransferRequest) (w : Wallet2) :
    Except Wallet2 (RelayBlob × Wallet2) :=
  match prepareTransfer E x r w with
  | none => .error w
  | some (selected, arg) =>
      if w.isViewOnly then (setSpentFlags true selected w).map fun w => (.unsigned arg, w)
      else
        match x.constructTx 0 w.account arg with
        | none => .error w
        | some res =>
            (finalizeTransaction E x arg res r.doNotRelay w).map fun w => (.signed res.tx, w)

/-- `submit_transfer` on the two files, `none` for one that does not decrypt. -/
def submitTransfer (E : WalletEnv) (x : SpendEnv) (arg : Option CreateTxArg) (res : Option CreateTxRes)
    (w : Wallet2) : Except Wallet2 (Transaction × Wallet2) :=
  match arg, res with
  | some arg, some res => (finalizeTransaction E x arg res false w).map fun w => (res.tx, w)
  | _, _ => .error w

/-- The loop of `cancel_transfer`, which throws at a flag that is not set; a position beyond the
transfers is undefined there. -/
def cancelSources : List ℕ → Wallet2 → Except Wallet2 Wallet2
  | [], w => .ok w
  | i :: l, w =>
      if (w.transfers[i]?).any TransferDetails.spent then
        cancelSources l { w with transfers := w.transfers.modify i fun td => { td with spent := false } }
      else .error w

/-- `cancel_transfer` on the file of an unsigned transaction. -/
def cancelTransfer (arg : Option CreateTxArg) (w : Wallet2) : Except Wallet2 Wallet2 :=
  match arg with
  | some arg => cancelSources (spentIndices arg.sources) w
  | none => .error w

end Wallet2

def TX_EXTRA_TAG_USER_DATA : UInt8 := 2
def TX_EXTRA_MAX_USER_DATA_SIZE : ℕ := 250
def TX_MAX_PAYMENT_ID_SIZE : ℕ := TX_EXTRA_MAX_USER_DATA_SIZE

/-- `extra` after `set_payment_id_and_swap_addr_to_tx_extra`, whose result `sweep_below` drops. -/
def paymentIdExtra (paymentId : Blob) : Blob :=
  let entry := TX_USER_DATA_TAG_PAYMENT_ID :: UInt8.ofNat paymentId.length :: paymentId
  if paymentId = [] ∨ TX_MAX_PAYMENT_ID_SIZE ≤ paymentId.length ∨
      TX_EXTRA_MAX_USER_DATA_SIZE ≤ entry.length then []
  else TX_EXTRA_TAG_USER_DATA :: UInt8.ofNat entry.length :: entry

/-- The parameters of `sweep_below`. -/
structure SweepRequest where
  fakeOutsCount : ℕ
  addr : DestinationAddress
  thresholdAmount : UInt64
  paymentId : Blob
  fee : UInt64

/-- `outs_total`, `amount_total`, `outs_swept` and the transaction. -/
structure SweepResult where
  outsTotal : ℕ
  amountTotal : UInt64
  outsSwept : ℕ
  blob : RelayBlob

/-- `try_construct_result_t`. -/
inductive TryConstructResult where
  | ok
  | tooFewOutputs
  | tooManyOutputs
  | createTxFailed
deriving DecidableEq, Repr

namespace Wallet2

/-- The positions to sweep with their amounts. -/
def collectSweep (now : ℕ) (w : Wallet2) (r : SweepRequest) : List ℕ → Option (List (ℕ × UInt64))
  | [] => some []
  | i :: l =>
      match (w.transfers[i]?).bind fun td => td.amount.bind fun _ =>
        w.spendableAmount now r.fakeOutsCount (fun a => decide (a < r.thresholdAmount)) td with
      | none => none
      | some none => collectSweep now w r l
      | some (some amount) => (collectSweep now w r l).map ((i, amount) :: ·)

/-- The transaction that sweeps the `sources`; `none` when splitting throws. -/
def sweepArg (r : SweepRequest) (w : Wallet2) (sources : List TxSourceEntry) (amountSwept : UInt64) :
    Option CreateTxArg :=
  (splitDestinations digitSplitStrategy { dustThreshold := DEFAULT_DUST_THRESHOLD }
    [⟨amountSwept - r.fee, r.addr⟩] emptyDestination).map fun d =>
      { spendPubKey := w.account.keys.accountAddress.spendPublicKey, sources, splittedDsts := d.1
        extra := paymentIdExtra r.paymentId, unlockTime := 0, txOutsAttr := 0, changeAmount := 0
        recipients := [r.addr], dust := d.2 }

/-- `try_construct_tx` for the first `bound` positions, its call of `construct_tx` being the `n`-th; `none`
when it throws. -/
def tryConstructTx (E : WalletEnv) (x : SpendEnv) (r : SweepRequest) (w : Wallet2)
    (outs : List (List (UInt64 × PublicKey))) (selected : List ℕ) (n bound : ℕ) :
    Option (TryConstructResult × Option (CreateTxArg × CreateTxRes)) :=
  if selected.length < bound then none
  else
    (makeSources E w r.fakeOutsCount outs 0 (selected.take bound)).bind fun sources =>
      let amountSwept := (sources.map TxSourceEntry.amount).foldl (· + ·) 0
      if amountSwept ≤ r.fee then some (.tooFewOutputs, none)
      else
        (sweepArg r w sources amountSwept).map fun arg =>
          match x.constructTx n w.account arg with
          | none => (.createTxFailed, none)
          | some res =>
              (if CURRENCY_MAX_TRANSACTION_BLOB_SIZE ≤ getObjectBlobsize res.tx then .tooManyOutputs
                else .ok, some (arg, res))

/-- The search for the largest number of sources that fits. `argOk` is the last transaction that fitted
and `last` the last one made; `none` when it breaks off, which throws. -/
def searchBoundary (E : WalletEnv) (x : SpendEnv) (r : SweepRequest) (w : Wallet2)
    (outs : List (List (UInt64 × PublicKey))) (selected : List ℕ) :
    ℕ → ℕ → ℕ → ℕ → CreateTxArg → CreateTxRes → Option (ℕ × CreateTxArg × CreateTxRes)
  | 0, n, _, _, argOk, last => some (n, argOk, last)
  | fuel + 1, n, low, high, argOk, last =>
      if high ≤ low + 1 then some (n, argOk, last)
      else
        match tryConstructTx E x r w outs selected n ((low + high) / 2) with
        | some (.ok, some (arg, res)) =>
            searchBoundary E x r w outs selected fuel (n + 1) ((low + high) / 2) high arg res
        | some (.tooManyOutputs, some (_, res)) =>
            searchBoundary E x r w outs selected fuel (n + 1) low ((low + high) / 2) argOk res
        | _ => none

/-- `sweep_below` up to its first change: the positions with their amounts, the number of calls of
`construct_tx`, the transaction to make and the last one made; `none` when it throws. -/
def prepareSweep (E : WalletEnv) (x : SpendEnv) (r : SweepRequest) (w : Wallet2) :
    Option (List (ℕ × UInt64) × ℕ × CreateTxArg × CreateTxRes) := do
  guard (r.addr.isSwapAddress = false)
  let found ← w.collectSweep x.now r (List.range w.transfers.length)
  guard (found ≠ [])
  let outs ← randomOuts x r.fakeOutsCount found.length
  -- bigger outputs first
  let selected := (found.mergeSort fun a b => decide (b.2 ≤ a.2)).map Prod.fst
  let bound := min selected.length (CURRENCY_MAX_TRANSACTION_BLOB_SIZE / (108 * (r.fakeOutsCount + 1)))
  match ← tryConstructTx E x r w outs selected 0 bound with
  | (.ok, some (arg, res)) => return (found, 1, arg, res)
  | (.tooManyOutputs, some (arg, res)) =>
      (searchBoundary E x r w outs selected bound 1 0 bound arg res).map (found, ·)
  | _ => none

/-- `sweep_below`. A view-only wallet gives the transaction out unsigned and marks nothing. -/
def sweepBelow (E : WalletEnv) (x : SpendEnv) (r : SweepRequest) (w : Wallet2) :
    Except Wallet2 (SweepResult × Wallet2) :=
  match prepareSweep E x r w with
  | none => .error w
  | some (found, n, arg, last) =>
      let result blob : SweepResult :=
        { outsTotal := found.length, amountTotal := (found.map Prod.snd).foldl (· + ·) 0
          outsSwept := last.tx.vin.length, blob }
      if w.isViewOnly then .ok (result (.unsigned arg), w)
      else
        match x.constructTx n w.account arg with
        | none => .error w
        | some res => (finalizeTransaction E x arg res false w).map fun w => (result (.signed res.tx), w)

end Wallet2

/-- The calls that change a wallet. -/
inductive WalletCall where
  | pullBlocks (getBlocksFast : GetBlocksFast)
  | transfer (x : SpendEnv) (r : TransferRequest)
  | sweepBelow (x : SpendEnv) (r : SweepRequest)
  | submitTransfer (x : SpendEnv) (arg : Option CreateTxArg) (res : Option CreateTxRes)
  | cancelTransfer (arg : Option CreateTxArg)

/-- The wallet that a call leaves, whether it returns or throws. -/
def WalletCall.run (E : WalletEnv) (w : Wallet2) : WalletCall → Wallet2
  | .pullBlocks getBlocksFast => stateLeft Prod.snd (w.pullBlocks E getBlocksFast)
  | .transfer x r => stateLeft Prod.snd (w.transfer E x r)
  | .sweepBelow x r => stateLeft Prod.snd (w.sweepBelow E x r)
  | .submitTransfer x arg res => stateLeft Prod.snd (w.submitTransfer E x arg res)
  | .cancelTransfer arg => stateLeft id (w.cancelTransfer arg)

def runWallet (E : WalletEnv) (calls : List WalletCall) (w : Wallet2) : Wallet2 :=
  calls.foldl (WalletCall.run E) w

end Boolberry
