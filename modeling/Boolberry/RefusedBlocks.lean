import Boolberry.SpentOutputs

/-!
# The pool after a refused block

`handle_block_to_main_chain` takes the transactions of a block from the pool one
by one. When it refuses the block they all come back; in the checkpoint zone they
come back without their signatures.
-/

namespace Boolberry
open KeyValue

/-- A transaction is in the pool and on the chain. -/
def InBoth (n : Node) (id : Hash) : Prop :=
  (n.txs.pool.transactions.get id).isSome = true ∧
    (n.txs.index.transactions.get id).isSome = true

/-- What was in the pool is there as it was, and nothing of the block is in the pool and on the
chain. -/
structure PoolKept (E : Env) (n : Node) (bl : Block) (n' : Node) : Prop where
  kept : ∀ id d, n.txs.pool.transactions.get id = some d →
    ∃ d', n'.txs.pool.transactions.get id = some d' ∧ d'.tx = d.tx
  apart : ∀ id ∈ getTransactionHash E bl.minerTx :: bl.txHashes, ¬InBoth n' id

section Refused

variable {E : Env} {now : ℕ} {F F' : Flags} {chain : List ChainBlock} {n n' : Node} {bl : Block}

theorem Rep.find_none {s : ChainStores} (h : Rep E F chain s) {id : Hash} {d : TxDetails}
    (hd : s.txs.pool.transactions.get id = some d) :
    ((entriesOf E chain).find? fun te => te.id == id && !isCoinbase te.tx) = none := by
  rw [List.find?_eq_none]
  intro te hte hp
  simp only [Bool.and_eq_true, beq_iff_eq, Bool.not_eq_true'] at hp
  have := h.txs.disjoint te hte hp.2
  rw [hp.1, hd] at this
  cases this

theorem pool_of_known_find {s : ChainStores} {id : Hash} {tx : Transaction}
    (hfind : ((entriesOf E chain).find? fun te => te.id == id && !isCoinbase te.tx) = none)
    (hk : Known E chain s id = some tx) :
    ∃ d, s.txs.pool.transactions.get id = some d ∧ d.tx = tx := by
  unfold Known knownIn at hk
  rw [hfind] at hk
  cases hg : s.txs.pool.transactions.get id with
  | none => simp [hg] at hk
  | some d =>
    rw [hg] at hk
    exact ⟨d, rfl, Option.some.inj hk⟩

theorem Refused.pool_isSome (h : Refused E now F chain n n' bl)
    (hrep : Rep E F chain n.toChainStores) (hrep' : Rep E F' chain n'.toChainStores) (id : Hash) :
    (n'.txs.pool.transactions.get id).isSome = true ↔
      (n.txs.pool.transactions.get id).isSome = true := by
  constructor
  · intro hs
    obtain ⟨d, hd⟩ := Option.isSome_iff_exists.mp hs
    have hk' : Known E chain n'.toChainStores id = some d.tx := known_of_pool hd
    obtain ⟨tx, hk⟩ : ∃ tx, Known E chain n.toChainStores id = some tx := by
      rcases h.recalls id with he | ⟨-, he⟩
      · exact ⟨_, he.symm.trans hk'⟩
      · rw [hk'] at he
        obtain ⟨tx, htx, -⟩ := Option.map_eq_some_iff.mp he.symm
        exact ⟨tx, htx⟩
    obtain ⟨d', hd', -⟩ := pool_of_known_find (hrep'.find_none hd) hk
    rw [hd']
    rfl
  · intro hs
    obtain ⟨d, hd⟩ := Option.isSome_iff_exists.mp hs
    obtain ⟨tx, hk⟩ : ∃ tx, Known E chain n'.toChainStores id = some tx := by
      rcases h.cuts id d hd with ⟨-, hk⟩ | ⟨-, hk⟩
      · exact ⟨_, hk⟩
      · exact ⟨_, hk⟩
    obtain ⟨d', hd', -⟩ := pool_of_known_find (hrep.find_none hd) hk
    rw [hd']
    rfl

theorem inBoth_iff_of_refused (h : Refused E now F chain n n' bl)
    (hrep : Rep E F chain n.toChainStores) (id : Hash) : InBoth n' id ↔ InBoth n id := by
  obtain ⟨R, es, hrep', -⟩ := h.rep
  have hindex : (n'.txs.index.transactions.get id).isSome = true ↔
      (n.txs.index.transactions.get id).isSome = true := by
    rw [hrep'.txs.index, hrep.txs.index, transactions_indexOf_isSome hrep.txs.linked,
      transactions_indexOf_isSome hrep.txs.linked]
  rw [InBoth, InBoth, h.pool_isSome hrep hrep', hindex]

theorem signatures_cutIn_eq {zone : Bool} {tx : Transaction} :
    cutIn zone tx = tx ↔ (zone = true → tx.signatures = []) := by
  cases zone with
  | false => simp [cutIn]
  | true =>
    constructor
    · intro he _
      rw [← he]
      rfl
    · intro hs
      obtain ⟨p, sigs⟩ := tx
      simp only at hs
      rw [hs trivial]
      rfl

theorem poolKept_iff_of_refused (h : Refused E now F chain n n' bl)
    (hrep : Rep E F chain n.toChainStores) :
    PoolKept E n bl n' ↔
      (∀ id d, n.txs.pool.transactions.get id = some d → BlockTakes E now chain n bl id →
        zoneAt n.checkpoints chain = true → d.tx.signatures = []) ∧
      ∀ id ∈ getTransactionHash E bl.minerTx :: bl.txHashes, ¬InBoth n id := by
  obtain ⟨R, es, hrep', -⟩ := h.rep
  constructor
  · rintro ⟨hkept, hapart⟩
    refine ⟨fun id d hd ht => ?_, fun id hid => ?_⟩
    · obtain ⟨d', hd', he⟩ := hkept id d hd
      rcases h.cuts id d hd with ⟨-, hk⟩ | ⟨hno, -⟩
      · rw [known_of_pool hd', Option.some.injEq, he] at hk
        exact signatures_cutIn_eq.mp hk.symm
      · exact absurd ht hno
    · rw [← inBoth_iff_of_refused h hrep]
      exact hapart id hid
  · rintro ⟨hsigs, hapart⟩
    refine ⟨fun id d hd => ?_, fun id hid => ?_⟩
    · have hk : Known E chain n'.toChainStores id = some d.tx := by
        rcases h.cuts id d hd with ⟨ht, hk⟩ | ⟨-, hk⟩
        · rw [hk, signatures_cutIn_eq.mpr (hsigs id d hd ht)]
        · exact hk
      exact pool_of_known_find (hrep.find_none hd) hk
    · rw [inBoth_iff_of_refused h hrep]
      exact hapart id hid

end Refused

/-- Whatever the exit of a call that refuses a block, the pool is as it was if and only if no
transaction with signatures was taken for a block in the checkpoint zone. -/
theorem poolKept_iff (E : Env) (cps : Checkpoints) (now : ℕ) (bvc : BlockVerificationContext)
    (n : Node) (bl : Block) (h : Reachable E cps n)
    (hr : (handleBlockToMainChain E now bvc n bl).1 = false) :
    ∃ F chain, Represents E cps F chain n ∧
      (PoolKept E n bl (handleBlockToMainChain E now bvc n bl).2.2 ↔
        (∀ id d, n.txs.pool.transactions.get id = some d → BlockTakes E now chain n bl id →
          cps.isInCheckpointZone n.blocks.length = true → d.tx.signatures = []) ∧
        ∀ id ∈ getTransactionHash E bl.minerTx :: bl.txHashes, ¬InBoth n id) := by
  obtain ⟨F, chain, hrep⟩ := chainInv_of_reachable h
  refine ⟨F, chain, hrep, ?_⟩
  obtain ⟨hcp, -, hrep⟩ := hrep
  have hzone : zoneAt n.checkpoints chain = cps.isInCheckpointZone n.blocks.length := by
    rw [zoneAt, hcp, hrep.blocks, blocksOf_length]
  rcases handleBlockToMainChain_spec now bl bvc hrep with ⟨htrue, -⟩ | ⟨-, -, hrefused⟩
  · rw [hr] at htrue
    cases htrue
  · rw [← hzone]
    exact poolKept_iff_of_refused hrefused hrep

/-- A node with ten blocks on the genesis block and `signedSpend` in its pool. -/
def spendingNode (chkPts : Checkpoints) : Option Node :=
  (sampleNode chkPts 10).bind fun n => run sampleEnv n [.transaction 0 signedSpend false]

/-- Outside the zone a block that pays its miner too little leaves the pool as it was. -/
theorem poolKept_sampleSpend : ∃ n bl, Reachable sampleEnv ∅ n ∧
    (handleBlockToMainChain sampleEnv 0 {} n bl).1 = false ∧
    (n.txs.pool.transactions.get (getTransactionHash sampleEnv signedSpend)).isSome = true ∧
    PoolKept sampleEnv n bl (handleBlockToMainChain sampleEnv 0 {} n bl).2.2 := by
  have hdec : (spendingNode ∅).map (fun n =>
      decide ((handleBlockToMainChain sampleEnv 0 {} n (spendingBlock n signedSpend 1)).1 = false) &&
        (n.txs.pool.transactions.get (getTransactionHash sampleEnv signedSpend)).isSome &&
        !(n.txs.index.transactions.get (getTransactionHash sampleEnv signedSpend)).isSome &&
        !(n.txs.index.transactions.get
          (getTransactionHash sampleEnv (spendingBlock n signedSpend 1).minerTx)).isSome) =
      some true := by
    decide +kernel
  obtain ⟨n, hn, hview⟩ := Option.map_eq_some_iff.mp hdec
  simp only [Bool.and_eq_true, decide_eq_true_eq, Bool.not_eq_true'] at hview
  obtain ⟨⟨⟨hfalse, hpool⟩, hspend⟩, hminer⟩ := hview
  obtain ⟨n₁, hn₁, hrun⟩ := Option.bind_eq_some_iff.mp hn
  have hreach := (reachable_sampleNode hn₁).run hrun
  obtain ⟨F, chain, -, hiff⟩ := poolKept_iff sampleEnv ∅ 0 {} n _ hreach hfalse
  refine ⟨n, _, hreach, hfalse, hpool, hiff.mpr ⟨fun id d _ _ hz => ?_, fun id hid hboth => ?_⟩⟩
  · rw [Checkpoints.isInCheckpointZone, decide_eq_true_eq] at hz
    exact absurd rfl hz.1
  · have hindex := hboth.2
    rcases List.mem_cons.mp hid with rfl | hid
    · rw [hminer] at hindex
      cases hindex
    · rw [List.mem_singleton.mp hid, hspend] at hindex
      cases hindex

/-- In the zone the transaction of such a block comes back without its signature. -/
theorem pool_signatures_lost : ¬∀ (E : Env) (cps : Checkpoints) (now : ℕ)
    (bvc : BlockVerificationContext) (n : Node) (bl : Block), Reachable E cps n →
    (handleBlockToMainChain E now bvc n bl).1 = false →
    PoolKept E n bl (handleBlockToMainChain E now bvc n bl).2.2 := by
  intro h
  let id := getTransactionHash sampleEnv signedSpend
  let sigs (n : Node) : Option (List (List Signature)) :=
    (n.txs.pool.transactions.get id).map fun d => d.tx.signatures
  have hdec : (spendingNode sampleCheckpoints).map (fun n =>
      decide ((handleBlockToMainChain sampleEnv 0 {} n (spendingBlock n signedSpend 1)).1 = false) &&
        decide (sigs n = some [[0]]) &&
        decide (sigs (handleBlockToMainChain sampleEnv 0 {} n (spendingBlock n signedSpend 1)).2.2 =
          some [])) = some true := by
    decide +kernel
  obtain ⟨n, hn, hview⟩ := Option.map_eq_some_iff.mp hdec
  simp only [Bool.and_eq_true, decide_eq_true_eq] at hview
  obtain ⟨⟨hfalse, hbefore⟩, hafter⟩ := hview
  obtain ⟨n₁, hn₁, hrun⟩ := Option.bind_eq_some_iff.mp hn
  have hkept := (h sampleEnv sampleCheckpoints 0 {} n _ ((reachable_sampleNode hn₁).run hrun) hfalse).kept
  obtain ⟨d, hd, hsigs⟩ := Option.map_eq_some_iff.mp hbefore
  obtain ⟨d', hd', hsigs'⟩ := Option.map_eq_some_iff.mp hafter
  obtain ⟨d'', hd'', he⟩ := hkept id d hd
  obtain rfl := Option.some.inj (hd'.symm.trans hd'')
  rw [he, hsigs] at hsigs'
  simp at hsigs'

end Boolberry
