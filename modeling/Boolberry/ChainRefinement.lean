import Boolberry.BlockRefinement
import Boolberry.BlockchainStorage

/-!
# The main chain refines a list of valid blocks

The abstract main chain is a list of blocks with their transactions. `ValidNext`
says when a block may follow a chain; `Rep` says that the stores of a node are
those of a chain.
-/

namespace Boolberry
open KeyValue TxMemoryPool

/-- A block of the main chain with its transactions in the order of `txHashes`. -/
structure ChainBlock where
  bei : BlockExtendedInfo
  txs : List TxEntry

def blocksOf (chain : List ChainBlock) : List BlockExtendedInfo := chain.map ChainBlock.bei

/-- The coinbase of a block at height `h`. -/
abbrev coinbaseOf (E : Env) (bl : Block) (h : ℕ) : TxEntry :=
  ⟨getTransactionHash E bl.minerTx, bl.minerTx, h⟩

def coinbaseEntry (E : Env) (bei : BlockExtendedInfo) : TxEntry := coinbaseOf E bei.bl bei.height

/-- The transactions of a block, the coinbase first. -/
def ChainBlock.entries (E : Env) (c : ChainBlock) : List TxEntry := coinbaseEntry E c.bei :: c.txs

def entriesOf (E : Env) (chain : List ChainBlock) : List TxEntry := chain.flatMap (·.entries E)

def blockIds (E : Env) (blocks : List BlockExtendedInfo) : List Hash :=
  blocks.map fun bei => getBlockHash E bei.bl

/-- The block-id index of a block list. -/
def blocksIndexOf (E : Env) (blocks : List BlockExtendedInfo) : Map Hash ℕ :=
  blocks.foldl (fun m bei => m.set (getBlockHash E bei.bl) bei.height) ∅

def scratchpadOf (E : Env) (blocks : List BlockExtendedInfo) : List Hash :=
  blocks.foldl (fun s bei => pushBlockScratchpadData E bei.bl s) []

/-- The checks of `handle_block_to_main_chain` in front of the transactions, on the block list. -/
structure HeaderOK (E : Env) (cps : Checkpoints) (t : ℕ) (blocks : List BlockExtendedInfo)
    (bl : Block) : Prop where
  prevId : bl.prevId = getTopBlockId E blocks
  future : bl.timestamp.toNat ≤ t + CURRENCY_BLOCK_FUTURE_TIME_LIMIT
  timestamp : timestampsAccept (lastTimestamps blocks) bl = true
  difficulty : getDifficultyForNextBlock blocks ≠ 0
  pow : checkHash (getBlockLonghash E bl blocks.length (scratchpadAccessor (scratchpadOf E blocks)))
    (getDifficultyForNextBlock blocks) = true
  checkpoint : cps.isInCheckpointZone blocks.length = true →
    cps.checkBlock blocks.length (getBlockHash E bl) = true
  miner : prevalidateMinerTransaction bl blocks.length = true

/-- `c` may follow `chain` at time `t` under the checkpoints `cps`: every check of
`handle_block_to_main_chain` passes and the record of `c` is the one it stores. -/
structure ValidNext (E : Env) (cps : Checkpoints) (t : ℕ) (chain : List ChainBlock)
    (c : ChainBlock) : Prop where
  header : HeaderOK E cps t (blocksOf chain) c.bei.bl
  coinbase : Addable E (entriesOf E chain) (coinbaseEntry E c.bei)
  txIds : c.txs.map TxEntry.id = c.bei.bl.txHashes
  txs : TxsOK E t chain.length (cps.isInCheckpointZone chain.length)
    (entriesOf E chain ++ [coinbaseEntry E c.bei]) c.txs
  fresh : getBlockHash E c.bei.bl ∉ blockIds E (blocksOf chain)
  record : ∃ baseReward donationTotal,
    validateMinerTransaction E (blocksOf chain) c.bei.bl
      (sizesOf c.txs (getObjectBlobsize c.bei.bl.minerTx)) (feesOf c.txs 0)
      (generatedCoins (blocksOf chain)) = some (baseReward, donationTotal) ∧
    c.bei = nextBlockExtendedInfo (blocksOf chain) (scratchpadOf E (blocksOf chain)).length
      c.bei.bl (sizesOf c.txs (getObjectBlobsize c.bei.bl.minerTx))
      (getDifficultyForNextBlock (blocksOf chain)) baseReward donationTotal

/-- Chains the node can hold: a first block that was valid before the checkpoints were set, and
blocks that were valid next at some time up to `t`. -/
inductive ValidChain (E : Env) (cps : Checkpoints) (t : ℕ) : List ChainBlock → Prop
  | genesis {c : ChainBlock} : ValidNext E ∅ t [] c → ValidChain E cps t [c]
  | snoc {chain : List ChainBlock} {c : ChainBlock} : ValidChain E cps t chain →
      ValidNext E cps t chain c → ValidChain E cps t (chain ++ [c])

theorem HeaderOK.mono {E : Env} {cps : Checkpoints} {t t' : ℕ} {blocks : List BlockExtendedInfo}
    {bl : Block} (hle : t ≤ t') (h : HeaderOK E cps t blocks bl) : HeaderOK E cps t' blocks bl :=
  ⟨h.prevId, h.future.trans (by omega), h.timestamp, h.difficulty, h.pow, h.checkpoint, h.miner⟩

theorem ValidNext.mono {E : Env} {cps : Checkpoints} {t t' : ℕ} {chain : List ChainBlock}
    {c : ChainBlock} (hle : t ≤ t') (h : ValidNext E cps t chain c) : ValidNext E cps t' chain c :=
  ⟨h.header.mono hle, h.coinbase, h.txIds, h.txs.mono hle, h.fresh, h.record⟩

theorem ValidChain.mono {E : Env} {cps : Checkpoints} {t t' : ℕ} {chain : List ChainBlock}
    (hle : t ≤ t') (h : ValidChain E cps t chain) : ValidChain E cps t' chain := by
  induction h with
  | genesis h => exact .genesis (h.mono hle)
  | snoc _ h ih => exact .snoc ih (h.mono hle)

theorem ValidChain.ne_nil {E : Env} {cps : Checkpoints} {t : ℕ} {chain : List ChainBlock}
    (h : ValidChain E cps t chain) : chain ≠ [] := by
  cases h <;> simp

theorem ValidChain.of_append_singleton {E : Env} {cps : Checkpoints} {t : ℕ}
    {chain : List ChainBlock} {c : ChainBlock} (h : ValidChain E cps t (chain ++ [c]))
    (hne : chain ≠ []) : ValidChain E cps t chain ∧ ValidNext E cps t chain c := by
  generalize hm : chain ++ [c] = m at h
  cases h with
  | genesis _ =>
    have hlen := congrArg List.length hm
    simp only [List.length_append, List.length_cons, List.length_nil] at hlen
    exact absurd (List.length_eq_zero_iff.mp (by omega)) hne
  | snoc hl hc =>
    obtain ⟨rfl, hte⟩ := List.append_inj' hm rfl
    obtain rfl := List.singleton_injective hte
    exact ⟨hl, hc⟩

@[simp] theorem blocksOf_append (chain chain' : List ChainBlock) :
    blocksOf (chain ++ chain') = blocksOf chain ++ blocksOf chain' := by simp [blocksOf]

@[simp] theorem blocksOf_length (chain : List ChainBlock) : (blocksOf chain).length = chain.length := by
  simp [blocksOf]

theorem entriesOf_append (E : Env) (chain chain' : List ChainBlock) :
    entriesOf E (chain ++ chain') = entriesOf E chain ++ entriesOf E chain' := by
  simp [entriesOf]

theorem entriesOf_append_singleton (E : Env) (chain : List ChainBlock) (c : ChainBlock) :
    entriesOf E (chain ++ [c]) = entriesOf E chain ++ [coinbaseEntry E c.bei] ++ c.txs := by
  simp [entriesOf, ChainBlock.entries]

theorem blockIds_append (E : Env) (bs bs' : List BlockExtendedInfo) :
    blockIds E (bs ++ bs') = blockIds E bs ++ blockIds E bs' := by simp [blockIds]

theorem scratchpadOf_append_singleton (E : Env) (bs : List BlockExtendedInfo)
    (bei : BlockExtendedInfo) :
    scratchpadOf E (bs ++ [bei]) = pushBlockScratchpadData E bei.bl (scratchpadOf E bs) := by
  simp [scratchpadOf, List.foldl_append]

theorem blocksIndexOf_append_singleton (E : Env) (bs : List BlockExtendedInfo)
    (bei : BlockExtendedInfo) :
    blocksIndexOf E (bs ++ [bei]) = (blocksIndexOf E bs).set (getBlockHash E bei.bl) bei.height := by
  simp [blocksIndexOf, List.foldl_append]

theorem blocksIndexOf_get_none {E : Env} {bs : List BlockExtendedInfo} {id : Hash} :
    (blocksIndexOf E bs).get id = none ↔ id ∉ blockIds E bs := by
  induction bs using List.reverseRecOn with
  | nil => simp [blocksIndexOf, blockIds]
  | append_singleton bs bei ih =>
    rw [blocksIndexOf_append_singleton, blockIds_append, Map.get_set]
    split_ifs with h
    · simp [blockIds, h]
    · rw [ih]
      simp [blockIds, h]

/-- The stores of the node are those of `chain`, with the spent flags `F`. -/
structure Rep (E : Env) (F : Flags) (chain : List ChainBlock) (s : ChainStores) : Prop where
  blocks : s.blocks = blocksOf chain
  blocksIndex : s.blocksIndex = blocksIndexOf E (blocksOf chain)
  txs : TxRep E F (entriesOf E chain) s.txs
  scratchpad : s.scratchpad = ⟨scratchpadOf E (blocksOf chain), scratchpadOf E (blocksOf chain)⟩

/-- What a node represented by `chain` knows of transactions. -/
def Known (E : Env) (chain : List ChainBlock) (s : ChainStores) : Hash → Option Transaction :=
  knownIn (entriesOf E chain) s.txs.pool

theorem pool_of_known {E : Env} {chain : List ChainBlock} {s : ChainStores} {id : Hash}
    {tx : Transaction} (hid : id ∉ (entriesOf E chain).map TxEntry.id)
    (hknown : Known E chain s id = some tx) :
    ∃ d, s.txs.pool.transactions.get id = some d ∧ d.tx = tx := by
  unfold Known knownIn at hknown
  cases hg : s.txs.pool.transactions.get id with
  | some d =>
    rw [hg] at hknown
    exact ⟨d, rfl, Option.some.inj hknown⟩
  | none =>
    rw [hg] at hknown
    obtain ⟨te, hfind, -⟩ := Option.map_eq_some_iff.mp hknown
    have hprop := List.find?_some hfind
    simp only [Bool.and_eq_true, beq_iff_eq] at hprop
    exact absurd (hprop.1 ▸ List.mem_map_of_mem (List.mem_of_find?_eq_some hfind)) hid

theorem ValidNext.height {E : Env} {cps : Checkpoints} {t : ℕ} {chain : List ChainBlock}
    {c : ChainBlock} (h : ValidNext E cps t chain c) : c.bei.height = chain.length := by
  obtain ⟨_, _, -, hbei⟩ := h.record
  rw [hbei]
  simp [nextBlockExtendedInfo]

theorem ValidNext.ext {E : Env} {cps cps' : Checkpoints} {t t' : ℕ} {chain : List ChainBlock}
    {c c' : ChainBlock} (h : ValidNext E cps t chain c) (h' : ValidNext E cps' t' chain c')
    (hbl : c.bei.bl = c'.bei.bl) (htxs : c.txs = c'.txs) : c = c' := by
  obtain ⟨r, d, hv, hbei⟩ := h.record
  obtain ⟨r', d', hv', hbei'⟩ := h'.record
  rw [hbl, htxs, hv'] at hv
  obtain ⟨rfl, rfl⟩ := Prod.mk.inj (Option.some.inj hv)
  rw [hbl, htxs, ← hbei'] at hbei
  cases c
  cases c'
  simp only at hbei htxs
  rw [hbei, htxs]

theorem vin_of_prevalidate {b : Block} {h : ℕ} (hm : prevalidateMinerTransaction b h = true) :
    ∃ g, b.minerTx.vin = [.gen g] ∧ g.toNat = h := by
  unfold prevalidateMinerTransaction at hm
  split at hm
  · rename_i g hg
    simp only [Bool.and_eq_true, decide_eq_true_eq] at hm
    exact ⟨g, hg, hm.1.1⟩
  · simp at hm

theorem inputsOK_of_gen {l : List TxEntry} {tx : Transaction} {g : UInt64}
    (h : tx.vin = [.gen g]) : InputsOK l tx := by
  have himages : keyImages tx = [] := by
    rw [keyImages_eq, h]
    rfl
  refine ⟨fun i hi => ?_, by simp [himages], by simp [himages]⟩
  rw [h, List.mem_singleton] at hi
  rw [hi]
  trivial

theorem refsOf_gen {l : List TxEntry} {tx : Transaction} {g : UInt64} (h : tx.vin = [.gen g]) :
    refsOf l tx = [] := by
  simp [refsOf, directRefs, h, directRef]

theorem isCoinbase_of_gen {tx : Transaction} {g : UInt64} (h : tx.vin = [.gen g]) :
    isCoinbase tx = true := by
  simp [isCoinbase, h]

end Boolberry
