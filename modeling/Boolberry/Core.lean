import Boolberry.AlternativeChains

/-!
# The node

`core`: how transactions come in, how checkpoints are set, what runs on idle, and
the runs of a node from the genesis block on.
-/

namespace Boolberry
open KeyValue

def CURRENT_BLOCK_MAJOR_VERSION : UInt8 := 1
def CURRENT_BLOCK_MINOR_VERSION : UInt8 := 0

/-- The coinbase hard-coded in `generate_genesis_block`, parsed. -/
def genesisCoinbaseTx : Transaction where
  version := 1
  unlockTime := 10
  vin := [.gen 0]
  vout := [
    ⟨4000000, .toKey ⟨0x718008bdfb4f49ee42514f02f88388ffcbd0d1941a29537c2eb0c081024c2e9b, 0⟩⟩,
    ⟨60000000, .toKey ⟨0x1609a7bafa866b82abecaf91acb2978218b8a7a94bd43356e9326dc3c4a3742a, 0⟩⟩,
    ⟨200000000, .toKey ⟨0xd6e518d7aca3482362e55d7e582f7b35c2179960372c708beed51399bc28d152, 0⟩⟩,
    ⟨6000000000, .toKey ⟨0x1e84ad88c2135399f66bc40bd4e58755e8c47ebec722df9c9ca9b3566c91edb8, 0⟩⟩,
    ⟨10000000000, .toKey ⟨0xa6cb3a558fdd07cdbb445bb7d832b15bbd34079f8c1f18069e41c6c64a2b451b, 0⟩⟩,
    ⟨400000000000, .toKey ⟨0xdd76bfe12c65bd1a074ea70349c1bc7a7217d4f1445d7dbf9abe3c303ea10bb1, 0⟩⟩,
    ⟨7000000000000, .toKey ⟨0x3464fc72236d12490828a75f1c94178021dba288eeaebf1b6f64109d0640e405, 0⟩⟩,
    ⟨10000000000000, .toKey ⟨0xb7082f7136012d23e33eff05ee9e836931e0da756413c8ecb72fa9bb8228ad9c, 0⟩⟩]
  extra := [
    1, 187, 83, 215, 180, 80, 77, 183, 218, 225, 22, 239, 127, 19, 230, 54, 252, 168, 240, 246,
    37, 152, 255, 40, 110, 158, 217, 122, 23, 25, 249, 87, 234, 2, 71, 84, 104, 101, 32, 84, 105,
    109, 101, 115, 44, 32, 77, 97, 121, 32, 49, 54, 32, 50, 48, 49, 52, 58, 32, 82, 105, 99, 104,
    101, 115, 116, 32, 49, 48, 37, 32, 111, 119, 110, 32, 97, 108, 109, 111, 115, 116, 32, 104,
    97, 108, 102, 32, 116, 104, 101, 32, 110, 97, 116, 105, 111, 110, 39, 115, 32, 119, 101, 97,
    108, 116, 104, 3, 0, 8, 122, 111, 105, 100, 98, 101, 114, 103, 175, 232, 50, 62, 219, 212,
    108, 116, 211, 1, 13, 50, 233, 132, 84, 215, 141, 173, 38, 107, 142, 95, 9, 204, 111, 181,
    174, 5, 142, 8, 12, 249, 57, 16, 72, 192, 6, 218, 142, 201, 215, 29, 55, 144, 55, 255, 144,
    54, 181, 62, 98, 105, 59, 240, 69, 230, 172, 159, 196, 70, 5, 247, 29, 43, 9, 76, 101, 116,
    39, 115, 32, 103, 111, 33]
  signatures := []

def generateGenesisBlock : Block where
  majorVersion := CURRENT_BLOCK_MAJOR_VERSION
  minorVersion := CURRENT_BLOCK_MINOR_VERSION
  timestamp := 0
  prevId := nullHash
  nonce := 1010101020
  flags := 0
  minerTx := genesisCoinbaseTx
  txHashes := []

/-- The loop of `prune_ring_signatures` over the transactions of a block. -/
def pruneTransactions (height : ℕ) : List Hash → TxIndex → Bool × TxIndex
  | [], s => (true, s)
  | h :: l, s =>
      match s.transactions.get h with
      | none => (false, s)
      | some e =>
          if e.keeperBlockHeight = height then
            let pruned := { e with tx := { e.tx with signatures := [] } }
            pruneTransactions height l { s with transactions := s.transactions.set h pruned }
          else (false, s)

def pruneRingSignatures (blocks : List BlockExtendedInfo) (s : TxIndex) (height : ℕ) :
    Bool × TxIndex :=
  match blocks[height]? with
  | none => (false, s)
  | some bei => pruneTransactions height bei.bl.txHashes s

/-- The loop of `prune_ring_signatures_if_need` over the heights it covers. -/
def pruneHeights (blocks : List BlockExtendedInfo) : List ℕ → TxIndex → Bool × TxIndex
  | [], s => (true, s)
  | h :: l, s =>
      let r := pruneRingSignatures blocks s h
      if r.1 then pruneHeights blocks l r.2 else r

def pruneRingSignaturesIfNeed (n : Node) : Bool × Node :=
  let top := n.checkpoints.getTopCheckpointHeight
  if n.blocks ≠ [] ∧ top ≠ 0 ∧ n.currentPrunedRsHeight < top then
    let heights := (List.range (min n.blocks.length (top + 1))).drop n.currentPrunedRsHeight
    let r := pruneHeights n.blocks heights n.txs.index
    let n := { n with txs := { n.txs with index := r.2 } }
    if r.1 then (true, { n with currentPrunedRsHeight := top }) else (false, n)
  else (true, n)

def setCheckpoints (n : Node) (chkPts : Checkpoints) : Node :=
  let n := (pruneRingSignaturesIfNeed { n with checkpoints := chkPts }).2
  { n with isInCheckpointZone := chkPts.isInCheckpointZone n.blocks.length }

def addNewTx (E : Env) (now : ℕ) (n : Node) (tx : Transaction) (txHash : Hash)
    (tvc : TxVerificationContext) (keepedByBlock : Bool) : Bool × TxVerificationContext × Node :=
  if n.txs.pool.haveTx txHash then (true, tvc, n)
  else if (n.txs.index.transactions.get txHash).isSome then (true, tvc, n)
  else
    let r := n.txs.pool.addTx now ((n.view E now).checkTxInputs n.txs.index) tx txHash tvc
      keepedByBlock
    (r.1, r.2.1, { n with txs := { n.txs with pool := r.2.2 } })

/-- `core::handle_incoming_tx` for a parsed transaction; `check_tx_syntax` always answers yes. -/
def handleIncomingTx (E : Env) (now : ℕ) (n : Node) (tx : Transaction) (keepedByBlock : Bool) :
    Bool × TxVerificationContext × Node :=
  if checkTxSemantic E n.currentBlockCumulSzLimit tx keepedByBlock then
    addNewTx E now n tx (getTransactionHash E tx) {} keepedByBlock
  else (false, { verifivationFailed := true }, n)

def isAgedAltBlock (currentHeight : ℕ) (bei : BlockExtendedInfo) : Bool :=
  decide (bei.height < currentHeight ∧
    CURRENCY_ALT_BLOCK_LIVETIME_COUNT < currentHeight - bei.height)

def pruneAgedAltBlocks (n : Node) : Node :=
  { n with alternativeChains :=
    n.alternativeChains.filter fun bei => !isAgedAltBlock n.blocks.length bei }

/-- What happens to a node from outside. -/
inductive Event where
  | block (now fuel : ℕ) (bl : Block)
  | transaction (now : ℕ) (tx : Transaction) (keepedByBlock : Bool)
  | removeStuck (now : ℕ) (order : List Hash)
  | pruneAltBlocks

/-- The node after an event; `none` when a call did not return within its fuel. -/
def Event.apply (E : Env) (n : Node) : Event → Option Node
  | .block now fuel bl => (addNewBlock E now fuel {} n bl).map fun r => r.2.2
  | .transaction now tx keepedByBlock => some (handleIncomingTx E now n tx keepedByBlock).2.2
  | .removeStuck now order =>
      some { n with txs := { n.txs with pool := n.txs.pool.removeStuckTransactions E now order } }
  | .pruneAltBlocks => some (pruneAgedAltBlocks n)

def run (E : Env) : Node → List Event → Option Node
  | n, [] => some n
  | n, e :: l =>
      match e.apply E n with
      | none => none
      | some n' => run E n' l

/-- A node that came up with an empty database: the genesis block added, then the checkpoints set. -/
def initNode (E : Env) (now : ℕ) (chkPts : Checkpoints) : Option Node :=
  match addNewBlock E now 1 {} Node.empty generateGenesisBlock with
  | none => none
  | some (r, bvc, n) => if r && !bvc.verifivationFailed then some (setCheckpoints n chkPts) else none

/-- The states of nodes with the checkpoints `chkPts`. -/
def Reachable (E : Env) (chkPts : Checkpoints) (n : Node) : Prop :=
  ∃ now n₀ events, initNode E now chkPts = some n₀ ∧ run E n₀ events = some n

theorem run_append {E : Env} {n m : Node} {events : List Event} (h : run E n events = some m)
    (events' : List Event) : run E n (events ++ events') = run E m events' := by
  induction events generalizing n with
  | nil =>
    obtain rfl := Option.some.inj h
    rfl
  | cons e l ih =>
    cases he : e.apply E n with
    | none => simp [run, he] at h
    | some n' =>
      simp only [List.cons_append, run, he] at h ⊢
      exact ih h

theorem Reachable.run {E : Env} {chkPts : Checkpoints} {n n' : Node} {events : List Event}
    (h : Reachable E chkPts n) (hr : Boolberry.run E n events = some n') :
    Reachable E chkPts n' := by
  obtain ⟨now, n₀, events₀, hinit, hrun⟩ := h
  exact ⟨now, n₀, events₀ ++ events, hinit, (run_append hrun events).trans hr⟩

/-- An environment for concrete runs: a polynomial hash, a proof of work that always suffices, and
signatures that always verify. -/
def sampleEnv : Env where
  cnFastHash b := BitVec.ofNat 256 (b.foldl (fun h c => h * 257 + c.toNat + 1) 0)
  getBlobLonghash _ _ _ := 0
  checkKey _ := true
  validateKeyImage _ := true
  checkRingSignature _ _ _ _ := true
  checkSignature _ _ _ := true
  isOutToAcc _ _ _ _ := false
  donationsAccount := ⟨⟨0, 0⟩, 0⟩
  royaltyAccount := ⟨⟨0, 0⟩, 0⟩
  pastEnd _ _ := 0

/-- A block on top of `blocks` with the transactions `txHashes`, whose coinbase pays the base reward
and `fee` to `target`. -/
def sampleBlock (E : Env) (blocks : List BlockExtendedInfo) (nonce : UInt64) (txHashes : List Hash)
    (fee : UInt64) (target : TxoutTarget) : Block where
  majorVersion := CURRENT_BLOCK_MAJOR_VERSION
  minorVersion := CURRENT_BLOCK_MINOR_VERSION
  timestamp := UInt64.ofNat (120 * blocks.length)
  prevId := getTopBlockId E blocks
  nonce := nonce
  flags := 0
  minerTx :=
    { version := 1, unlockTime := UInt64.ofNat (blocks.length + CURRENCY_MINED_MONEY_UNLOCK_WINDOW),
      vin := [.gen (UInt64.ofNat blocks.length)],
      vout := [⟨getBaseBlockReward (generatedCoins blocks) + fee, target⟩], extra := [],
      signatures := [] }
  txHashes := txHashes

def sampleKey : TxoutTarget := .toKey ⟨1, 0⟩

/-- Add `k` blocks to a node, each made for the node it comes to. -/
def growBy (E : Env) (next : Node → Block) : ℕ → Node → Option Node
  | 0, n => some n
  | k + 1, n =>
      match addNewBlock E 0 1 {} n (next n) with
      | none => none
      | some r => growBy E next k r.2.2

/-- Add `k` empty blocks to a node. -/
def grow (E : Env) : ℕ → Node → Option Node := growBy E fun n => sampleBlock E n.blocks 0 [] 0 sampleKey

/-- The event is a block that comes in. -/
def Event.isBlock : Event → Bool
  | .block .. => true
  | _ => false

theorem growBy_run {E : Env} {next : Node → Block} {k : ℕ} {n n' : Node}
    (hg : growBy E next k n = some n') :
    ∃ events, run E n events = some n' ∧ ∀ e ∈ events, e.isBlock = true := by
  induction k generalizing n with
  | zero => exact ⟨[], hg, by simp⟩
  | succ k ih =>
    unfold growBy at hg
    cases hb : addNewBlock E 0 1 {} n (next n) with
    | none => simp [hb] at hg
    | some r =>
      simp only [hb] at hg
      obtain ⟨events, hrun, hev⟩ := ih hg
      refine ⟨.block 0 1 (next n) :: events, ?_, ?_⟩
      · simp only [run, Event.apply, hb, Option.map_some]
        exact hrun
      · simpa [Event.isBlock] using hev

/-- A node with `k` empty blocks on the genesis block. -/
def sampleNode (chkPts : Checkpoints) (k : ℕ) : Option Node :=
  (initNode sampleEnv 0 chkPts).bind (grow sampleEnv k)

theorem reachable_sampleNode {chkPts : Checkpoints} {k : ℕ} {n : Node}
    (h : sampleNode chkPts k = some n) : Reachable sampleEnv chkPts n := by
  obtain ⟨n₀, hinit, hgrow⟩ := Option.bind_eq_some_iff.mp h
  obtain ⟨events, hrun, -⟩ := growBy_run hgrow
  exact ⟨0, n₀, events, hinit, hrun⟩

theorem exists_sampleNode_three :
    ∃ n, sampleNode ∅ 2 = some n ∧ n.blocks.length = 3 := by
  have h : (sampleNode ∅ 2).map (fun n => n.blocks.length) = some 3 := by decide +kernel
  exact Option.map_eq_some_iff.mp h

/-- A transaction that spends the fourth output of the genesis block with the key image `k`. -/
def sampleSpend (k : KeyImage) : Transaction where
  version := 1
  unlockTime := 0
  vin := [.toKey ⟨6000000000, [0], k⟩]
  vout := []
  extra := []
  signatures := []

/-- A spending transaction with a signature for its one input. -/
def signedSpend : Transaction := { sampleSpend 1 with signatures := [[0]] }

/-- A block with the transaction `tx` on top of the node, its reward short by `missing`. -/
def spendingBlock (n : Node) (tx : Transaction) (missing : UInt64) : Block :=
  sampleBlock sampleEnv n.blocks 0 [getTransactionHash sampleEnv tx] (6000000000 - missing) sampleKey

/-- Hand in a transaction and a block that holds it. -/
def spend (tx : Transaction) (missing : UInt64) (n : Node) : Option Node :=
  run sampleEnv n [.transaction 0 tx false,
    .block 0 1 (spendingBlock (handleIncomingTx sampleEnv 0 n tx false).2.2 tx missing)]

theorem exists_spending_node : ∃ n, Reachable sampleEnv ∅ n ∧ n.blocks.length = 12 ∧
    (n.txs.index.transactions.get (getTransactionHash sampleEnv signedSpend)).isSome = true := by
  have h : ((sampleNode ∅ 10).bind (spend signedSpend 0)).map (fun n => (n.blocks.length,
      (n.txs.index.transactions.get (getTransactionHash sampleEnv signedSpend)).isSome)) =
      some (12, true) := by decide +kernel
  obtain ⟨n, hn, hview⟩ := Option.map_eq_some_iff.mp h
  obtain ⟨hlen, htx⟩ := Prod.mk.inj hview
  obtain ⟨n₁, hn₁, hspend⟩ := Option.bind_eq_some_iff.mp hn
  exact ⟨n, (reachable_sampleNode hn₁).run hspend, hlen, htx⟩

end Boolberry
