import Boolberry.TxIndex
import Boolberry.TxPool
import Boolberry.Aliases

/-!
# Adding and purging transactions of blocks

`add_transaction_from_block`, `purge_transaction_from_blockchain` and the loops of
`handle_block_to_main_chain` and `purge_block_data_from_blockchain` over the
transactions of a block. All they write is a `TxState`; the block list and the
checkpoint-zone flag do not change while they run and come in a `ChainView`.
-/

namespace Boolberry
open KeyValue

/-- The containers the transactions of a block are written to, with the pool they come from. -/
structure TxState where
  index : TxIndex
  aliasDb : AliasDb
  pool : TxMemoryPool

/-- What the transaction code reads of the chain and the clock. -/
structure ChainView where
  env : Env
  now : ℕ
  blocks : List BlockExtendedInfo
  zone : Bool

/-- `check_tx_inputs(tx, max_used_block_height, max_used_block_id)`. -/
def ChainView.checkTxInputs (v : ChainView) (index : TxIndex) (tx : Transaction) :
    Option (ℕ × Hash) :=
  match TxIndex.checkTxInputs v.env index v.now v.blocks.length v.zone tx with
  | none => none
  | some maxHeight =>
      match v.blocks[maxHeight]? with
      | none => none
      | some bei => some (maxHeight, getBlockHash v.env bei.bl)

/-- `m_tx_pool.add_tx(tx, tvc, true)` for a transaction that a block gives back. -/
def ChainView.returnTx (v : ChainView) (s : TxState) (tx : Transaction) : Bool × TxState :=
  let r := s.pool.addTx v.now (v.checkTxInputs s.index) tx (getTransactionHash v.env tx) {} true
  (r.1, { s with pool := r.2.2 })

def processBlockchainTxExtra (E : Env) (d : AliasDb) (tx : Transaction) : Option AliasDb :=
  match parseAndValidateTxExtra E tx with
  | none => none
  | some ei =>
      if isCoinbase tx && decide (ei.aliasInfo.aliasName ≠ []) then d.putAliasInfo E ei.aliasInfo
      else some d

def unprocessBlockchainTxExtra (E : Env) (d : AliasDb) (tx : Transaction) : Option AliasDb :=
  if isCoinbase tx then
    match parseAndValidateTxExtra E tx with
    | none => none
    | some ei => if ei.aliasInfo.aliasName ≠ [] then d.popAliasInfo ei.aliasInfo else some d
  else some d

def addTransactionFromBlock (E : Env) (s : TxState) (tx : Transaction) (txId : Hash)
    (blHeight : ℕ) : Except TxState TxState :=
  match processBlockchainTxExtra E s.aliasDb tx with
  | none => .error s
  | some d =>
      let undoExtra := (unprocessBlockchainTxExtra E d tx).getD d
      match s.index.addTransactionInputs tx.vin with
      | .error index =>
          .error { s with
            index := left (index.purgeTransactionKeyimages false tx.vin), aliasDb := undoExtra }
      | .ok index =>
          match index.transactions.get txId with
          | some _ =>
              .error { s with
                index := left (index.purgeTransactionKeyimages true tx.vin), aliasDb := undoExtra }
          | none =>
              let r := pushTransactionToGlobalOutsIndex tx txId index.outputs
              let chE : TransactionChainEntry :=
                ⟨tx, blHeight, r.2, List.replicate tx.vout.length false⟩
              .ok { s with
                index := ⟨index.transactions.set txId chE, index.spentKeys, r.1⟩, aliasDb := d }

/-- The end of `purge_transaction_from_blockchain`, behind the return to the pool. -/
def purgeFromIndex (s : TxState) (tx : Transaction) (txId : Hash) : Except TxState TxState :=
  match popTransactionFromGlobalIndex tx txId s.index.outputs with
  | .error outputs => .error { s with index := { s.index with outputs } }
  | .ok outputs =>
      let s' := { s with index :=
        { s.index with outputs, transactions := s.index.transactions.erase txId } }
      if (s.index.transactions.get txId).isSome then .ok s' else .error s'

def purgeTransactionFromBlockchain (v : ChainView) (s : TxState) (txId : Hash) :
    Except TxState TxState :=
  match s.index.transactions.get txId with
  | none => .error s
  | some tce =>
      let tx := tce.tx
      let s := { s with index := left (s.index.purgeTransactionKeyimages true tx.vin) }
      match unprocessBlockchainTxExtra v.env s.aliasDb tx with
      | none => .error s
      | some d =>
          let s := { s with aliasDb := d }
          if isCoinbase tx then purgeFromIndex s tx txId
          else
            let r := v.returnTx s tx
            if r.1 then purgeFromIndex r.2 tx txId else .error r.2

/-- One round of `purge_block_data_from_blockchain`, with the running result. -/
def purgeStep (v : ChainView) (r : Bool × TxState) (txId : Hash) : Bool × TxState :=
  match purgeTransactionFromBlockchain v r.2 txId with
  | .ok s => (r.1, s)
  | .error s => (false, s)

/-- `purge_block_data_from_blockchain`: the last processed transaction first, the coinbase last. -/
def purgeBlockDataFromBlockchain (v : ChainView) (s : TxState) (bl : Block) (processedTxCount : ℕ) :
    Bool × TxState :=
  if bl.txHashes.length < processedTxCount then (false, s)
  else
    let ids := (bl.txHashes.take processedTxCount).reverse ++ [getTransactionHash v.env bl.minerTx]
    ids.foldl (purgeStep v) (true, s)

/-- The variables of the transaction loop of `handle_block_to_main_chain`. -/
structure TxLoop where
  state : TxState
  txProcessedCount : ℕ
  feeSummary : UInt64
  cumulativeBlockSize : ℕ

/-- Where the transaction loop gives up: what it leaves, how many transactions it had processed,
and whether the block is to be marked as invalid. -/
structure TxLoopFailure where
  state : TxState
  txProcessedCount : ℕ
  addAsInvalid : Bool

/-- The transaction loop of `handle_block_to_main_chain`. -/
def processTransactions (v : ChainView) : List Hash → TxLoop → Except TxLoopFailure TxLoop
  | [], st => .ok st
  | txId :: l, st =>
      match st.state.pool.takeTx v.env txId with
      | none => .error ⟨st.state, st.txProcessedCount, false⟩
      | some (d, pool) =>
          let s := { st.state with pool }
          -- under checkpoints ring signatures are pruned
          let tx := if v.zone then { d.tx with signatures := [] } else d.tx
          match TxIndex.checkTxInputs v.env s.index v.now v.blocks.length v.zone tx with
          | none => .error ⟨(v.returnTx s tx).2, st.txProcessedCount, true⟩
          | some _ =>
              match addTransactionFromBlock v.env s tx txId v.blocks.length with
              | .error s => .error ⟨(v.returnTx s tx).2, st.txProcessedCount, false⟩
              | .ok s =>
                  processTransactions v l ⟨s, st.txProcessedCount + 1, st.feeSummary + d.fee,
                    st.cumulativeBlockSize + d.blobSize⟩

end Boolberry
