import Boolberry.ReadyTransactions

/-!
# Pool entries and the blocks that give them back

A transaction that a block gives back is checked in the middle of the block. Whatever the index is
there, below the height of the chain it finds what the index of the chain finds, and that is all such
an entry can remember.
-/

namespace Boolberry
open KeyValue TxMemoryPool

/-- What the second index finds in a block below height `H`, the first one finds there too. -/
def FindsBelow (H : ℕ) (s s' : TxIndex) : Prop :=
  ∀ a i o, s'.outputAt a i = some o → o.height < H → s.outputAt a i = some o

theorem FindsBelow.refl (H : ℕ) (s : TxIndex) : FindsBelow H s s := fun _ _ _ h _ => h

theorem FindsBelow.trans {H : ℕ} {s s' s'' : TxIndex} (h : FindsBelow H s s') (h' : FindsBelow H s' s'') :
    FindsBelow H s s'' :=
  fun a i o ho hlt => h a i o (h' a i o ho hlt) hlt

namespace TxIndex

variable {s s' : TxIndex}

theorem outputAt_some {a : UInt64} {i : ℕ} {o : StoredOutput} :
    s.outputAt a i = some o ↔ ∃ e, (s.outputs a)[i]? = some (o.txId, o.n) ∧
      s.transactions.get o.txId = some e ∧ e.tx.toTransactionPrefix = o.tx ∧
      e.keeperBlockHeight = o.height := by
  obtain ⟨id, n, tx, height⟩ := o
  unfold outputAt
  cases (s.outputs a)[i]? with
  | none => simp
  | some out =>
    obtain ⟨id', n'⟩ := out
    dsimp only
    simp only [Option.map_eq_some_iff, StoredOutput.mk.injEq, Option.some.injEq, Prod.mk.injEq]
    constructor
    · rintro ⟨e, he, rfl, rfl, rfl, rfl⟩
      exact ⟨e, ⟨rfl, rfl⟩, he, rfl, rfl⟩
    · rintro ⟨e, ⟨rfl, rfl⟩, he, rfl, rfl⟩
      exact ⟨e, he, rfl, rfl, rfl, rfl⟩

/-- Spent flags, global indexes and signatures do not count. -/
theorem outputAt_congr (ho : s.outputs = s'.outputs) (ht : ∀ id,
    (s.transactions.get id).map (fun e => (e.tx.toTransactionPrefix, e.keeperBlockHeight)) =
      (s'.transactions.get id).map fun e => (e.tx.toTransactionPrefix, e.keeperBlockHeight)) :
    s.outputAt = s'.outputAt := by
  funext a i
  unfold outputAt
  rw [ho]
  cases (s'.outputs a)[i]? with
  | none => rfl
  | some out =>
    have ht := congrArg (Option.map fun q => (⟨out.1, out.2, q.1, q.2⟩ : StoredOutput)) (ht out.1)
    rw [Option.map_map, Option.map_map] at ht
    exact ht

theorem below_of_eq (H : ℕ) (h : s'.outputAt = s.outputAt) : FindsBelow H s s' := by
  intro a i o ho _
  rw [← h]
  exact ho

theorem outputAt_updateSpentTxFlags {id : Hash} {n : ℕ} {spent : Bool}
    (h : s.updateSpentTxFlags id n spent = some s') : s'.outputAt = s.outputAt := by
  unfold updateSpentTxFlags at h
  cases htce : s.transactions.get id with
  | none => simp [htce] at h
  | some tce =>
    simp only [htce] at h
    split_ifs at h
    obtain rfl := Option.some.inj h
    refine outputAt_congr rfl fun id' => ?_
    dsimp only
    rw [Map.get_set]
    split_ifs with hid
    · rw [hid, htce]
      rfl
    · rfl

theorem outputAt_updateDirectSpend (s : TxIndex) (inp : TxinToKey) (spent : Bool) :
    (left (s.updateDirectSpend inp spent)).outputAt = s.outputAt := by
  unfold updateDirectSpend updateSpentTxFlagsForInput
  split
  · rename_i i _
    cases (s.outputs inp.amount)[i.toNat]? with
    | none => rfl
    | some out =>
      dsimp only
      cases hu : s.updateSpentTxFlags out.1 out.2 spent with
      | none => rfl
      | some s' => exact outputAt_updateSpentTxFlags hu
  · rfl

theorem outputAt_addTransactionInput (s : TxIndex) (inp : Txin) :
    (left (s.addTransactionInput inp)).outputAt = s.outputAt := by
  cases inp with
  | toKey inp =>
    unfold addTransactionInput
    dsimp only
    cases s.spentKeys.get inp.kImage with
    | none => exact outputAt_updateDirectSpend _ inp true
    | some b => rfl
  | gen g => rfl
  | toScript a b c => rfl
  | toScripthash a b c d => rfl

theorem outputAt_addTransactionInputs (s : TxIndex) (vin : List Txin) :
    (left (s.addTransactionInputs vin)).outputAt = s.outputAt := by
  induction vin generalizing s with
  | nil => rfl
  | cons inp l ih =>
    have hone := outputAt_addTransactionInput s inp
    unfold addTransactionInputs
    cases hr : s.addTransactionInput inp with
    | error s' =>
      rw [hr] at hone
      exact hone
    | ok s' =>
      rw [hr] at hone
      exact (ih s').trans hone

theorem outputAt_purgeTransactionInput (strictCheck : Bool) (s : TxIndex) (inp : Txin) :
    (left (s.purgeTransactionInput strictCheck inp)).outputAt = s.outputAt := by
  cases inp with
  | toKey inp =>
    unfold purgeTransactionInput
    dsimp only
    split_ifs
    · rfl
    · exact outputAt_updateDirectSpend _ inp false
  | gen g => rfl
  | toScript a b c => rfl
  | toScripthash a b c d => rfl

theorem outputAt_purgeTransactionKeyimages (strictCheck : Bool) (s : TxIndex) (vin : List Txin) :
    (left (s.purgeTransactionKeyimages strictCheck vin)).outputAt = s.outputAt := by
  induction vin generalizing s with
  | nil => rfl
  | cons inp l ih =>
    have hone := outputAt_purgeTransactionInput strictCheck s inp
    unfold purgeTransactionKeyimages
    cases hr : s.purgeTransactionInput strictCheck inp with
    | error s' =>
      rw [hr] at hone
      dsimp only
      split_ifs
      · exact hone
      · exact (ih s').trans hone
    | ok s' =>
      rw [hr] at hone
      exact (ih s').trans hone

end TxIndex

/-- A transaction of a block at height `H` or above adds nothing below. -/
theorem below_push {H height : ℕ} (hle : H ≤ height) (s : TxIndex) (tx : Transaction) (id : Hash)
    (spentKeys : Map KeyImage Bool) (gindexes : List ℕ) (flags : List Bool) :
    FindsBelow H s ⟨s.transactions.set id ⟨tx, height, gindexes, flags⟩, spentKeys,
      (pushTransactionToGlobalOutsIndex tx id s.outputs).1⟩ := by
  intro a i o ho hlt
  obtain ⟨e, hout, hget, htx, hheight⟩ := TxIndex.outputAt_some.mp ho
  dsimp only at hout hget
  -- what the new transaction keeps is not below
  have hne : o.txId ≠ id := by
    intro heq
    rw [heq, Map.get_set_self] at hget
    obtain rfl := Option.some.inj hget
    dsimp only at hheight
    omega
  rw [Map.get_set_of_ne _ _ hne] at hget
  rw [pushTransactionToGlobalOutsIndex, pushOuts_fst] at hout
  refine TxIndex.outputAt_some.mpr ⟨e, ?_, hget, htx, hheight⟩
  rcases Nat.lt_or_ge i (s.outputs a).length with hi | hi
  · rwa [List.getElem?_append_left hi] at hout
  · rw [List.getElem?_append_right hi] at hout
    exact absurd (mem_outsOfAmount (List.mem_of_getElem? hout)).1 hne

theorem popOuts_prefix (id : Hash) (vout : List TxOut) (outputs : OutputsContainer) (a : UInt64) :
    left (popOuts id vout outputs) a <+: outputs a := by
  induction vout generalizing outputs with
  | nil => exact List.prefix_refl _
  | cons ot l ih =>
    unfold popOuts
    cases ot.target with
    | toKey k =>
      dsimp only
      cases (outputs ot.amount).getLast? with
      | none => exact List.prefix_refl _
      | some back =>
        dsimp only
        split_ifs
        · refine (ih _).trans ?_
          rw [Function.update_apply]
          split_ifs with ha
          · rw [ha]
            exact List.dropLast_prefix _
          · exact List.prefix_refl _
        · exact List.prefix_refl _
    | toScript t => exact ih outputs
    | toScripthash t => exact ih outputs

theorem below_of_initial (H : ℕ) {s s' : TxIndex} (ho : ∀ a, s'.outputs a <+: s.outputs a)
    (ht : ∀ id e, s'.transactions.get id = some e → s.transactions.get id = some e) :
    FindsBelow H s s' := by
  intro a i o hat _
  obtain ⟨e, hout, hget, htx, hheight⟩ := TxIndex.outputAt_some.mp hat
  refine TxIndex.outputAt_some.mpr ⟨e, ?_, ht _ e hget, htx, hheight⟩
  obtain ⟨rest, hrest⟩ := ho a
  rw [← hrest, List.getElem?_append_left (List.getElem?_eq_some_iff.mp hout).1]
  exact hout

theorem insertTx_entries {p : TxMemoryPool} {id id' : Hash} {d d' : TxDetails}
    {tvc added : TxVerificationContext}
    (h : (insertTx p id d tvc added).2.2.transactions.get id' = some d') :
    p.transactions.get id' = some d' ∨ d' = d := by
  unfold insertTx at h
  split_ifs at h
  · exact Or.inl h
  · dsimp only at h
    rw [Map.get_set] at h
    split_ifs at h
    · exact Or.inr (Option.some.inj h).symm
    · exact Or.inl h

/-- What `add_tx` puts in remembers what the check gave back, or nothing. -/
theorem addTx_entries {now : ℕ} {check : Transaction → Option (ℕ × Hash)} {p : TxMemoryPool}
    {tx : Transaction} {id id' : Hash} {tvc : TxVerificationContext} {kept : Bool} {d : TxDetails}
    (h : (addTx now check p tx id tvc kept).2.2.transactions.get id' = some d) :
    p.transactions.get id' = some d ∨
      ∃ fee, d = entryFor now tx fee kept ((check tx).getD (0, nullHash)) := by
  unfold addTx at h
  dsimp only at h
  split at h
  · exact Or.inl h
  split at h
  · exact Or.inl h
  split at h
  · exact Or.inl h
  split at h
  · exact Or.inl h
  split at h
  · exact Or.inl h
  split at h
  · exact Or.inl h
  cases hc : check tx with
  | none =>
    rw [hc] at h
    dsimp only at h
    split at h
    · exact (insertTx_entries h).imp_right fun heq => ⟨_, heq⟩
    · exact Or.inl h
  | some maxUsed =>
    rw [hc] at h
    exact (insertTx_entries h).imp_right fun heq => ⟨_, heq⟩

/-- Whatever the check comes to on an index that agrees with `s₀` below the chain, `G` holds of the
entry that remembers it. -/
def Admits (v : ChainView) (s₀ : TxIndex) (G : TxDetails → Prop) : Prop :=
  ∀ index tx fee kept, FindsBelow v.blocks.length s₀ index →
    G (entryFor v.now tx fee kept ((v.checkTxInputs index tx).getD (0, nullHash)))

/-- In the middle of a block the index agrees with `s₀` below the chain, and `G` holds of the pool. -/
structure Tracks (v : ChainView) (s₀ : TxIndex) (G : TxDetails → Prop) (s : TxState) : Prop where
  index : FindsBelow v.blocks.length s₀ s.index
  pool : ∀ id d, s.pool.transactions.get id = some d → G d

namespace Tracks

variable {v : ChainView} {s₀ : TxIndex} {G : TxDetails → Prop} {s : TxState}

theorem setIndex (h : Tracks v s₀ G s) {s' : TxState} (hpool : s'.pool = s.pool)
    (hindex : FindsBelow v.blocks.length s.index s'.index) : Tracks v s₀ G s' :=
  ⟨h.index.trans hindex, by rw [hpool]; exact h.pool⟩

theorem returnTx (hG : Admits v s₀ G) (h : Tracks v s₀ G s) (tx : Transaction) :
    Tracks v s₀ G (v.returnTx s tx).2 := by
  refine ⟨h.index, fun id d hd => ?_⟩
  rcases addTx_entries hd with hd | ⟨fee, rfl⟩
  · exact h.pool id d hd
  · exact hG _ tx fee true h.index

theorem eraseTx (E : Env) (h : Tracks v s₀ G s) (id : Hash) (d : TxDetails) :
    Tracks v s₀ G { s with pool := TxMemoryPool.eraseTx E s.pool id d } := by
  refine ⟨h.index, fun id' d' hd' => h.pool id' d' ?_⟩
  change (s.pool.transactions.erase id).get id' = some d' at hd'
  rw [Map.get_erase] at hd'
  split_ifs at hd'
  exact hd'

theorem purgeFromIndex (h : Tracks v s₀ G s) (tx : Transaction) (id : Hash) :
    Tracks v s₀ G (left (Boolberry.purgeFromIndex s tx id)) := by
  have hpre := popOuts_prefix id tx.vout.reverse s.index.outputs
  unfold Boolberry.purgeFromIndex popTransactionFromGlobalIndex
  cases hr : popOuts id tx.vout.reverse s.index.outputs with
  | error outputs =>
    rw [hr] at hpre
    exact h.setIndex rfl (below_of_initial _ hpre fun _ _ he => he)
  | ok outputs =>
    rw [hr] at hpre
    have herase : FindsBelow v.blocks.length s.index
        { s.index with outputs, transactions := s.index.transactions.erase id } := by
      refine below_of_initial _ hpre fun id' e he => ?_
      dsimp only at he
      rw [Map.get_erase] at he
      split_ifs at he
      exact he
    dsimp only
    split_ifs
    · exact h.setIndex rfl herase
    · exact h.setIndex rfl herase

theorem purgeTransaction (hG : Admits v s₀ G) (h : Tracks v s₀ G s) (id : Hash) :
    Tracks v s₀ G (left (purgeTransactionFromBlockchain v s id)) := by
  unfold purgeTransactionFromBlockchain
  cases s.index.transactions.get id with
  | none => exact h
  | some tce =>
    dsimp only
    have hkeys : Tracks v s₀ G
        { s with index := left (s.index.purgeTransactionKeyimages true tce.tx.vin) } :=
      h.setIndex rfl (TxIndex.below_of_eq _ (TxIndex.outputAt_purgeTransactionKeyimages ..))
    cases unprocessBlockchainTxExtra v.env s.aliasDb tce.tx with
    | none => exact hkeys
    | some d =>
      have hextra : Tracks v s₀ G
          { s with
            index := left (s.index.purgeTransactionKeyimages true tce.tx.vin), aliasDb := d } :=
        ⟨hkeys.index, hkeys.pool⟩
      dsimp only
      split_ifs
      · exact hextra.purgeFromIndex _ _
      · exact (hextra.returnTx hG _).purgeFromIndex _ _
      · exact hextra.returnTx hG _

theorem purgeBlockData (hG : Admits v s₀ G) (h : Tracks v s₀ G s) (bl : Block) (count : ℕ) :
    Tracks v s₀ G (purgeBlockDataFromBlockchain v s bl count).2 := by
  unfold purgeBlockDataFromBlockchain
  split_ifs
  · exact h
  · dsimp only
    generalize (bl.txHashes.take count).reverse ++ [getTransactionHash v.env bl.minerTx] = ids
    generalize true = ok
    induction ids generalizing s ok with
    | nil => exact h
    | cons id l ih =>
      have hone := h.purgeTransaction hG id
      rw [List.foldl_cons]
      unfold purgeStep
      cases hr : purgeTransactionFromBlockchain v s id with
      | error s' =>
        rw [hr] at hone
        exact ih hone false
      | ok s' =>
        rw [hr] at hone
        exact ih hone ok

theorem addTransaction (h : Tracks v s₀ G s) (tx : Transaction) (id : Hash) :
    Tracks v s₀ G (left (addTransactionFromBlock v.env s tx id v.blocks.length)) := by
  have hadd := s.index.outputAt_addTransactionInputs tx.vin
  unfold addTransactionFromBlock
  cases processBlockchainTxExtra v.env s.aliasDb tx with
  | none => exact h
  | some d =>
    dsimp only
    cases hr : s.index.addTransactionInputs tx.vin with
    | error index =>
      rw [hr] at hadd
      exact h.setIndex rfl (TxIndex.below_of_eq _
        ((TxIndex.outputAt_purgeTransactionKeyimages false index tx.vin).trans hadd))
    | ok index =>
      rw [hr] at hadd
      dsimp only
      cases index.transactions.get id with
      | some e =>
        exact h.setIndex rfl (TxIndex.below_of_eq _
          ((TxIndex.outputAt_purgeTransactionKeyimages true index tx.vin).trans hadd))
      | none =>
        exact h.setIndex rfl ((TxIndex.below_of_eq _ hadd).trans
          (below_push le_rfl index tx id index.spentKeys _ _))

/-- What the transaction loop leaves, whether it goes through or stops. -/
def loopState : Except TxLoopFailure TxLoop → TxState
  | .ok st => st.state
  | .error f => f.state

theorem processTransactions (hG : Admits v s₀ G) (ids : List Hash) {st : TxLoop}
    (h : Tracks v s₀ G st.state) :
    Tracks v s₀ G (loopState (Boolberry.processTransactions v ids st)) := by
  induction ids generalizing st with
  | nil => exact h
  | cons id l ih =>
    unfold Boolberry.processTransactions takeTx
    cases st.state.pool.transactions.get id with
    | none => exact h
    | some d =>
      have htake := h.eraseTx v.env id d
      dsimp only
      generalize (if v.zone = true then { d.tx with signatures := [] } else d.tx) = tx
      cases TxIndex.checkTxInputs v.env st.state.index v.now v.blocks.length v.zone tx with
      | none => exact htake.returnTx hG tx
      | some m =>
        have hadd := htake.addTransaction tx id
        dsimp only
        cases hr : addTransactionFromBlock v.env
            { st.state with pool := TxMemoryPool.eraseTx v.env st.state.pool id d } tx id
            v.blocks.length with
        | error s' =>
          rw [hr] at hadd
          exact hadd.returnTx hG tx
        | ok s' =>
          rw [hr] at hadd
          exact ih hadd

end Tracks

/-- `G` holds of every entry of the pool. -/
def PoolAll (G : TxDetails → Prop) (p : TxMemoryPool) : Prop :=
  ∀ id d, p.transactions.get id = some d → G d

section Blocks

variable {E : Env} {now : ℕ} {G : TxDetails → Prop} {n : Node}

theorem Tracks.start {v : ChainView} (s : TxState) (h : PoolAll G s.pool) : Tracks v s.index G s :=
  ⟨FindsBelow.refl _ _, h⟩

theorem finishBlock_pool (hG : Admits (n.view E now) n.txs.index G) (bvc : BlockVerificationContext)
    (bl : Block) (diff : WideDifficulty) {st : TxLoop}
    (h : Tracks (n.view E now) n.txs.index G st.state) :
    PoolAll G (finishBlock E now bvc n bl diff st).2.2.txs.pool := by
  have hpurged := (h.purgeBlockData hG bl st.txProcessedCount).pool
  unfold finishBlock
  dsimp only
  cases validateMinerTransaction E n.blocks bl st.cumulativeBlockSize st.feeSummary
      (generatedCoins n.blocks) with
  | none => exact hpurged
  | some q =>
    obtain ⟨baseReward, donationTotal⟩ := q
    dsimp only
    cases n.blocksIndex.get (getBlockHash E bl) with
    | some k => exact hpurged
    | none => exact h.pool

theorem addBlockTransactions_pool (hG : Admits (n.view E now) n.txs.index G)
    (h : PoolAll G n.txs.pool) (bvc : BlockVerificationContext) (bl : Block) (diff : WideDifficulty) :
    PoolAll G (addBlockTransactions E now bvc n bl diff).2.2.txs.pool := by
  have hcoin := (Tracks.start (v := n.view E now) n.txs h).addTransaction bl.minerTx
    (getTransactionHash E bl.minerTx)
  unfold addBlockTransactions
  dsimp only
  change Tracks _ _ _ (left (addTransactionFromBlock E n.txs bl.minerTx
    (getTransactionHash E bl.minerTx) n.blocks.length)) at hcoin
  cases hr : addTransactionFromBlock E n.txs bl.minerTx (getTransactionHash E bl.minerTx)
      n.blocks.length with
  | error s =>
    rw [hr] at hcoin
    exact hcoin.pool
  | ok s =>
    rw [hr] at hcoin
    have hloop : Tracks (n.view E now) n.txs.index G (Tracks.loopState (processTransactions
        (n.view E now) bl.txHashes ⟨s, 0, 0, getObjectBlobsize bl.minerTx⟩)) :=
      Tracks.processTransactions hG bl.txHashes hcoin
    dsimp only
    cases hp : processTransactions (n.view E now) bl.txHashes
        ⟨s, 0, 0, getObjectBlobsize bl.minerTx⟩ with
    | ok st =>
      rw [hp] at hloop
      exact finishBlock_pool hG bvc bl diff hloop
    | error f =>
      rw [hp] at hloop
      have hpurged := (hloop.purgeBlockData hG bl f.txProcessedCount).pool
      dsimp only
      split_ifs
      · rw [(addBlockAsInvalid_stores _ _ _).1]
        exact hpurged
      · exact hpurged

/-- A block that is pushed, or refused, gives back entries that `G` holds of. -/
theorem handleBlockToMainChain_pool
    (hG : ∀ zone, Admits ⟨E, now, n.blocks, zone⟩ n.txs.index G) (h : PoolAll G n.txs.pool)
    (bvc : BlockVerificationContext) (bl : Block) :
    PoolAll G (handleBlockToMainChain E now bvc n bl).2.2.txs.pool := by
  obtain ⟨-, hs, -⟩ := checkBlockTimestampMain_spec E now n bl
  unfold handleBlockToMainChain
  dsimp only
  generalize (checkBlockTimestampMain E now n bl).2 = m at hs
  have hm : PoolAll G m.txs.pool := by
    rw [hs]
    exact h
  have hGm : ∀ zone, Admits ⟨E, now, m.blocks, zone⟩ m.txs.index G := by
    rw [hs]
    exact hG
  let zone := m.checkpoints.isInCheckpointZone m.blocks.length
  have hadd := addBlockTransactions_pool (n := { m with isInCheckpointZone := zone }) (hGm zone) hm
    bvc bl (getDifficultyForNextBlock m.blocks)
  split_ifs
  · exact h
  · exact hm
  · exact hm
  · exact hm
  · exact hm
  · exact hm
  · exact hadd

theorem popBlockFromBlockchain_pool (hG : Admits (n.view E now) n.txs.index G)
    (h : PoolAll G n.txs.pool) : PoolAll G (popBlockFromBlockchain E now n).2.txs.pool := by
  unfold popBlockFromBlockchain
  split_ifs
  · exact h
  · cases n.blocks.getLast? with
    | none => exact h
    | some bei =>
      have hpurged := ((Tracks.start n.txs h).purgeBlockData hG bei.bl bei.bl.txHashes.length).pool
      dsimp only
      generalize n.scratchpad.popBlockScratchpadData E bei.bl = q
      obtain ⟨ok, w⟩ := q
      cases ok with
      | false => exact h
      | true =>
        change PoolAll G (purgeBlockDataFromBlockchain (Node.view E now { n with scratchpad := w })
          n.txs bei.bl bei.bl.txHashes.length).2.pool at hpurged
        simp only [Bool.not_true, Bool.false_eq_true, if_false]
        generalize purgeBlockDataFromBlockchain (Node.view E now { n with scratchpad := w })
          n.txs bei.bl bei.bl.txHashes.length = r at hpurged
        split_ifs
        · exact hpurged
        · exact hpurged
        · exact hpurged

end Blocks

end Boolberry
