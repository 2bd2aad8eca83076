import Boolberry.Lib.FiniteMap
import Boolberry.FormatUtils

/-!
# The transaction index

The three containers a transaction of a block writes to: the stored
transactions with their spent flags and global indexes, the spent key images,
and the list of outputs of each amount. A function of the source that returns
`false` after it has written returns `Except.error` with what it left behind.
-/

namespace Boolberry
open KeyValue

/-- The outputs of each amount; an absent record and an empty one read alike. -/
abbrev OutputsContainer := UInt64 → List (Hash × ℕ)

structure TxIndex where
  transactions : Map Hash TransactionChainEntry
  spentKeys : Map KeyImage Bool
  outputs : OutputsContainer

namespace TxIndex

def empty : TxIndex := ⟨∅, ∅, fun _ => []⟩

/-- `update_spent_tx_flags_for_input(tx_id, n, spent)`. -/
def updateSpentTxFlags (s : TxIndex) (txId : Hash) (n : ℕ) (spent : Bool) : Option TxIndex :=
  match s.transactions.get txId with
  | none => none
  | some tce =>
      if n < tce.spentFlags.length then
        some { s with transactions :=
          s.transactions.set txId { tce with spentFlags := tce.spentFlags.set n spent } }
      else none

/-- `update_spent_tx_flags_for_input(amount, global_index, spent)`. -/
def updateSpentTxFlagsForInput (s : TxIndex) (amount globalIndex : UInt64) (spent : Bool) :
    Option TxIndex :=
  match (s.outputs amount)[globalIndex.toNat]? with
  | none => none
  | some out => updateSpentTxFlags s out.1 out.2 spent

/-- The direct-spend part both input visitors end with. -/
def updateDirectSpend (s : TxIndex) (inp : TxinToKey) (spent : Bool) : Except TxIndex TxIndex :=
  match inp.keyOffsets with
  | [globalIndex] =>
      match updateSpentTxFlagsForInput s inp.amount globalIndex spent with
      | none => .error s
      | some s' => .ok s'
  | _ => .ok s

/-- `add_transaction_input_visitor`. -/
def addTransactionInput (s : TxIndex) : Txin → Except TxIndex TxIndex
  | .toKey inp =>
      match s.spentKeys.get inp.kImage with
      | some _ => .error s
      | none => updateDirectSpend { s with spentKeys := s.spentKeys.set inp.kImage true } inp true
  | .gen _ => .ok s
  | .toScript .. => .error s
  | .toScripthash .. => .error s

def addTransactionInputs (s : TxIndex) : List Txin → Except TxIndex TxIndex
  | [] => .ok s
  | i :: l =>
      match addTransactionInput s i with
      | .error s' => .error s'
      | .ok s' => addTransactionInputs s' l

/-- `purge_transaction_visitor`. -/
def purgeTransactionInput (strictCheck : Bool) (s : TxIndex) : Txin → Except TxIndex TxIndex
  | .toKey inp =>
      let s' := { s with spentKeys := s.spentKeys.erase inp.kImage }
      if (s.spentKeys.get inp.kImage).isNone && strictCheck then .error s'
      else updateDirectSpend s' inp false
  | _ => .ok s

/-- `purge_transaction_keyimages_from_blockchain`: a failing input ends the loop in strict mode only. -/
def purgeTransactionKeyimages (strictCheck : Bool) (s : TxIndex) : List Txin → Except TxIndex TxIndex
  | [] => .ok s
  | i :: l =>
      match purgeTransactionInput strictCheck s i with
      | .ok s' => purgeTransactionKeyimages strictCheck s' l
      | .error s' =>
          if strictCheck then .error s' else purgeTransactionKeyimages strictCheck s' l

end TxIndex

/-- What an `Except` of a state with itself leaves behind. -/
def left {σ : Type} : Except σ σ → σ
  | .ok s => s
  | .error s => s

/-- The loop of `push_transaction_to_global_outs_index` from output `i` on. -/
def pushOuts (txId : Hash) : ℕ → List TxOut → OutputsContainer → OutputsContainer × List ℕ
  | _, [], outputs => (outputs, [])
  | i, ot :: l, outputs =>
      match ot.target with
      | .toKey _ =>
          let item := outputs ot.amount ++ [(txId, i)]
          let r := pushOuts txId (i + 1) l (Function.update outputs ot.amount item)
          (r.1, (item.length - 1) :: r.2)
      | _ => pushOuts txId (i + 1) l outputs

def pushTransactionToGlobalOutsIndex (tx : Transaction) (txId : Hash) (outputs : OutputsContainer) :
    OutputsContainer × List ℕ :=
  pushOuts txId 0 tx.vout outputs

/-- The loop of `pop_transaction_from_global_index` over the reversed outputs;
the position of an output is the number of those behind it in that order. -/
def popOuts (txId : Hash) : List TxOut → OutputsContainer → Except OutputsContainer OutputsContainer
  | [], outputs => .ok outputs
  | ot :: l, outputs =>
      match ot.target with
      | .toKey _ =>
          match (outputs ot.amount).getLast? with
          | none => .error outputs
          | some backItem =>
              if backItem = (txId, l.length) then
                popOuts txId l (Function.update outputs ot.amount (outputs ot.amount).dropLast)
              else .error outputs
      | _ => popOuts txId l outputs

def popTransactionFromGlobalIndex (tx : Transaction) (txId : Hash) (outputs : OutputsContainer) :
    Except OutputsContainer OutputsContainer :=
  popOuts txId tx.vout.reverse outputs

/-- `is_tx_spendtime_unlocked`; `height - 1 + 1` in 64 bits, so also right for an empty chain. -/
def isTxSpendtimeUnlocked (now height : ℕ) (unlockTime : UInt64) : Bool :=
  if unlockTime.toNat < CURRENCY_MAX_BLOCK_NUMBER then
    decide (unlockTime.toNat ≤ height + CURRENCY_LOCKED_TX_ALLOWED_DELTA_BLOCKS - 1)
  else decide (unlockTime.toNat ≤ now + CURRENCY_LOCKED_TX_ALLOWED_DELTA_SECONDS)

namespace TxIndex

/-- One absolute offset of `scan_outputkeys_for_indexes` with the visitor of
`check_tx_input`: the output key and the height of the block that keeps it. -/
def scanOutputkey (s : TxIndex) (now height : ℕ) (txin : TxinToKey) (i : UInt64) :
    Option (PublicKey × ℕ) :=
  match (s.outputs txin.amount)[i.toNat]? with
  | none => none
  | some out =>
      match s.transactions.get out.1 with
      | none => none
      | some tce =>
          match tce.tx.vout[out.2]? with
          | none => none
          | some ot =>
              match ot.target with
              | .toKey outtk =>
                  if 1 < outtk.mixAttr ∧ txin.keyOffsets.length < outtk.mixAttr.toNat then none
                  else if outtk.mixAttr = CURRENCY_TO_KEY_OUT_FORCED_NO_MIX ∧
                      txin.keyOffsets.length ≠ 1 then none
                  else if isTxSpendtimeUnlocked now height tce.tx.unlockTime then
                    some (outtk.key, tce.keeperBlockHeight)
                  else none
              | _ => none

/-- `scan_outputkeys_for_indexes`: the ring and the largest height it uses. -/
def scanOutputkeysForIndexes (s : TxIndex) (now height : ℕ) (txin : TxinToKey) :
    Option (List PublicKey × ℕ) :=
  if s.outputs txin.amount = [] then none
  else
    ((relativeOutputOffsetsToAbsolute txin.keyOffsets).mapM (scanOutputkey s now height txin)).map
      fun l => (l.map Prod.fst, (l.map Prod.snd).foldl max 0)

/-- `check_tx_input`, with `zone` for `m_is_in_checkpoint_zone`; the largest related height. -/
def checkTxInput (E : Env) (s : TxIndex) (now height : ℕ) (zone : Bool) (txPrefixHash : Hash)
    (txin : TxinToKey) (sig : List Signature) : Option ℕ :=
  match scanOutputkeysForIndexes s now height txin with
  | none => none
  | some (outputKeys, maxHeight) =>
      if txin.keyOffsets.length ≠ outputKeys.length then none
      else if zone then some maxHeight
      else if E.validateKeyImage txin.kImage && decide (sig.length = outputKeys.length) &&
          E.checkRingSignature txPrefixHash txin.kImage outputKeys sig then some maxHeight
      else none

/-- The loop of `check_tx_inputs`, with the signatures not yet used. -/
def checkTxInputsGo (E : Env) (s : TxIndex) (now height : ℕ) (zone : Bool) (txPrefixHash : Hash) :
    List Txin → List (List Signature) → ℕ → Option ℕ
  | [], signatures, maxHeight =>
      if zone || signatures.isEmpty then some maxHeight else none
  | .toKey txin :: l, signatures, maxHeight =>
      if txin.keyOffsets = [] then none
      else if (s.spentKeys.get txin.kImage).isSome then none
      else if !zone && signatures.isEmpty then none
      else
        let sig := if zone then [] else signatures.headD []
        match checkTxInput E s now height zone txPrefixHash txin sig with
        | none => none
        | some h =>
            checkTxInputsGo E s now height zone txPrefixHash l signatures.tail (max maxHeight h)
  | _ :: _, _, _ => none

/-- `check_tx_inputs(tx, pmax_used_block_height)`: the largest height used, `none` for `false`. -/
def checkTxInputs (E : Env) (s : TxIndex) (now height : ℕ) (zone : Bool) (tx : Transaction) :
    Option ℕ :=
  checkTxInputsGo E s now height zone (getTransactionHash E tx) tx.vin tx.signatures 0

/-- `find_end_of_allowed_index`, scanning the first `i` outputs backwards. -/
def findEndOfAllowedIndexGo (s : TxIndex) (height : ℕ) (amount : UInt64) : ℕ → ℕ
  | 0 => 0
  | i + 1 =>
      match (s.outputs amount)[i]? with
      | none => 0
      | some out =>
          match s.transactions.get out.1 with
          | none => 0
          | some tce =>
              if tce.keeperBlockHeight + CURRENCY_MINED_MONEY_UNLOCK_WINDOW ≤ height then i + 1
              else findEndOfAllowedIndexGo s height amount i

def findEndOfAllowedIndex (s : TxIndex) (height : ℕ) (amount : UInt64) : ℕ :=
  findEndOfAllowedIndexGo s height amount (s.outputs amount).length

end TxIndex
end Boolberry
