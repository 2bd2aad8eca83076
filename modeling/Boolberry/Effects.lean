import Boolberry.PushPop
import Boolberry.AlternativeChains

/-!
# What the calls change

The effect of pushing, popping and adding alternative blocks on the parts of a node
that say where blocks are: the block list with its index, the alternative blocks
and the flag of the checkpoint zone. Nothing is assumed of the node.
-/

namespace Boolberry
open KeyValue XorPatch

/-- The block list and its index are the same. -/
structure SameBlocks (n n' : Node) : Prop where
  blocks : n'.blocks = n.blocks
  blocksIndex : n'.blocksIndex = n.blocksIndex

/-- `bl` was put on top of the main chain. -/
structure PutOnTop (E : Env) (n : Node) (bl : Block) (n' : Node) : Prop where
  blocks : ∃ bei : BlockExtendedInfo, bei.bl = bl ∧ bei.height = n.blocks.length ∧
    n'.blocks = n.blocks ++ [bei]
  blocksIndex : n'.blocksIndex = n.blocksIndex.set (getBlockHash E bl) n.blocks.length
  fresh : n.blocksIndex.get (getBlockHash E bl) = none
  zone : n'.isInCheckpointZone = n.checkpoints.isInCheckpointZone n.blocks.length
  prevId : bl.prevId = getTopBlockId E n.blocks
  checkpoint : n.checkpoints.isInCheckpointZone n.blocks.length = true →
    n.checkpoints.checkBlock n.blocks.length (getBlockHash E bl) = true
  miner : prevalidateMinerTransaction bl n.blocks.length = true

/-- `bl` was not put on the main chain; the flag may have been set for it. -/
structure NotPut (n n' : Node) : Prop where
  same : SameBlocks n n'
  zone : n'.isInCheckpointZone = n.isInCheckpointZone ∨
    n'.isInCheckpointZone = n.checkpoints.isInCheckpointZone n.blocks.length

theorem addBlockAsInvalid_effect (n : Node) (bei : BlockExtendedInfo) (h : Hash) :
    SameBlocks n (addBlockAsInvalid n bei h) ∧
      (addBlockAsInvalid n bei h).isInCheckpointZone = n.isInCheckpointZone := by
  unfold addBlockAsInvalid
  split
  · exact ⟨⟨rfl, rfl⟩, rfl⟩
  · exact ⟨⟨rfl, rfl⟩, rfl⟩

theorem checkBlockTimestamp_effect (E : Env) (n : Node) (timestamps : List UInt64) (b : Block) :
    (checkBlockTimestamp E n timestamps b).2.isInCheckpointZone = n.isInCheckpointZone := by
  unfold checkBlockTimestamp
  split_ifs <;> rfl

theorem checkBlockTimestampMain_effect (E : Env) (now : ℕ) (n : Node) (b : Block) :
    (checkBlockTimestampMain E now n b).2.isInCheckpointZone = n.isInCheckpointZone := by
  unfold checkBlockTimestampMain
  split_ifs
  · rfl
  · exact checkBlockTimestamp_effect E n _ b

section Push

variable (E : Env) (now : ℕ) (bvc : BlockVerificationContext) (n : Node) (bl : Block)

/-- The end of a push leaves the chain alone or puts the block on top. -/
theorem addBlockTransactions_effect (diff : WideDifficulty) :
    SameFrame n (addBlockTransactions E now bvc n bl diff).2.2 ∧
      (addBlockTransactions E now bvc n bl diff).2.2.isInCheckpointZone = n.isInCheckpointZone ∧
      (((addBlockTransactions E now bvc n bl diff).1 = false ∧
          SameBlocks n (addBlockTransactions E now bvc n bl diff).2.2) ∨
        ((addBlockTransactions E now bvc n bl diff).1 = true ∧
          (∃ bei : BlockExtendedInfo, bei.bl = bl ∧ bei.height = n.blocks.length ∧
            (addBlockTransactions E now bvc n bl diff).2.2.blocks = n.blocks ++ [bei]) ∧
          (addBlockTransactions E now bvc n bl diff).2.2.blocksIndex =
            n.blocksIndex.set (getBlockHash E bl) n.blocks.length ∧
          n.blocksIndex.get (getBlockHash E bl) = none)) := by
  unfold addBlockTransactions
  simp only
  cases addTransactionFromBlock E n.txs bl.minerTx (getTransactionHash E bl.minerTx)
      n.blocks.length with
  | error s => exact ⟨⟨rfl, rfl⟩, rfl, Or.inl ⟨rfl, rfl, rfl⟩⟩
  | ok s =>
    simp only
    cases processTransactions (n.view E now) bl.txHashes ⟨s, 0, 0, getObjectBlobsize bl.minerTx⟩ with
    | error f =>
      dsimp only
      split_ifs
      · obtain ⟨hsame, hzone⟩ := addBlockAsInvalid_effect { n with txs :=
          (purgeBlockDataFromBlockchain (n.view E now) f.state bl f.txProcessedCount).2 }
          ⟨bl, 0, 0, 0, 0, 0, 0⟩ (getBlockHash E bl)
        obtain ⟨-, hframe⟩ := addBlockAsInvalid_stores { n with txs :=
          (purgeBlockDataFromBlockchain (n.view E now) f.state bl f.txProcessedCount).2 }
          ⟨bl, 0, 0, 0, 0, 0, 0⟩ (getBlockHash E bl)
        exact ⟨⟨hframe.1, hframe.2⟩, hzone, Or.inl ⟨rfl, hsame.1, hsame.2⟩⟩
      · exact ⟨⟨rfl, rfl⟩, rfl, Or.inl ⟨rfl, rfl, rfl⟩⟩
    | ok st =>
      simp only [finishBlock]
      cases validateMinerTransaction E n.blocks bl st.cumulativeBlockSize st.feeSummary
          (generatedCoins n.blocks) with
      | none => exact ⟨⟨rfl, rfl⟩, rfl, Or.inl ⟨rfl, rfl, rfl⟩⟩
      | some q =>
        cases hget : n.blocksIndex.get (getBlockHash E bl) with
        | some _ => exact ⟨⟨rfl, rfl⟩, rfl, Or.inl ⟨rfl, rfl, rfl⟩⟩
        | none => exact ⟨⟨rfl, rfl⟩, rfl, Or.inr ⟨rfl, ⟨_, rfl, rfl, rfl⟩, rfl, rfl⟩⟩

theorem handleBlockToMainChain_effect :
    SameFrame n (handleBlockToMainChain E now bvc n bl).2.2 ∧
      (((handleBlockToMainChain E now bvc n bl).1 = false ∧
          NotPut n (handleBlockToMainChain E now bvc n bl).2.2) ∨
        ((handleBlockToMainChain E now bvc n bl).1 = true ∧
          PutOnTop E n bl (handleBlockToMainChain E now bvc n bl).2.2)) := by
  obtain ⟨-, hs, hf⟩ := checkBlockTimestampMain_spec E now n bl
  have hz := checkBlockTimestampMain_effect E now n bl
  unfold handleBlockToMainChain
  simp only
  by_cases hprev : bl.prevId ≠ getTopBlockId E n.blocks
  · rw [if_pos hprev]
    exact ⟨SameFrame.refl n, Or.inl ⟨rfl, ⟨rfl, rfl⟩, Or.inl rfl⟩⟩
  rw [if_neg hprev]
  generalize checkBlockTimestampMain E now n bl = r at hs hf hz
  obtain ⟨ok, n₁⟩ := r
  have hb : n₁.blocks = n.blocks := congrArg ChainStores.blocks hs
  have hi : n₁.blocksIndex = n.blocksIndex := congrArg ChainStores.blocksIndex hs
  have hearly : NotPut n n₁ := ⟨⟨hb, hi⟩, Or.inl hz⟩
  simp only at hf hs hz ⊢
  -- the refusals in front of the checkpoint test
  split_ifs with h1 h2 h3 h4 h5
  · exact ⟨hf, Or.inl ⟨rfl, hearly⟩⟩
  · exact ⟨hf, Or.inl ⟨rfl, hearly⟩⟩
  · exact ⟨hf, Or.inl ⟨rfl, hearly⟩⟩
  all_goals
    have hzone : n₁.checkpoints.isInCheckpointZone n₁.blocks.length =
      n.checkpoints.isInCheckpointZone n.blocks.length := by rw [hf.checkpoints, hb]
  · exact ⟨⟨hf.1, hf.2⟩, Or.inl ⟨rfl, ⟨hb, hi⟩, Or.inr hzone⟩⟩
  · exact ⟨⟨hf.1, hf.2⟩, Or.inl ⟨rfl, ⟨hb, hi⟩, Or.inr hzone⟩⟩
  · obtain ⟨hframe, hflag, hput⟩ := addBlockTransactions_effect E now bvc
      { n₁ with isInCheckpointZone := n₁.checkpoints.isInCheckpointZone n₁.blocks.length } bl
      (getDifficultyForNextBlock n₁.blocks)
    refine ⟨⟨hframe.1.trans hf.1, hframe.2.trans hf.2⟩, ?_⟩
    rcases hput with ⟨hr, hsame⟩ | ⟨hr, ⟨bei, hbl, hh, hblocks⟩, hindex, hfresh⟩
    · exact Or.inl ⟨hr, ⟨hsame.1.trans hb, hsame.2.trans hi⟩, Or.inr (hflag.trans hzone)⟩
    · refine Or.inr ⟨hr, ⟨bei, hbl, hh.trans (congrArg List.length hb), ?_⟩, ?_, ?_,
        hflag.trans hzone, not_not.mp hprev, fun hin => ?_, ?_⟩
      · rw [hblocks]
        exact congrArg (· ++ [bei]) hb
      · rw [hindex]
        simp only [hi, hb]
      · rw [← hi]
        exact hfresh
      · rw [← hb, ← hf.checkpoints] at hin ⊢
        simpa [hin] using h4
      · rw [← hb]
        simpa using h5

end Push

/-- A pop takes the top block off, in the index at least, or leaves both alone. -/
theorem popBlockFromBlockchain_effect (E : Env) (now : ℕ) (n : Node) :
    SameFrame n (popBlockFromBlockchain E now n).2 ∧
      (popBlockFromBlockchain E now n).2.isInCheckpointZone = n.isInCheckpointZone ∧
      (SameBlocks n (popBlockFromBlockchain E now n).2 ∨
        ∃ bei, n.blocks.getLast? = some bei ∧
          (popBlockFromBlockchain E now n).2.blocksIndex =
            n.blocksIndex.erase (getBlockHash E bei.bl) ∧
          ((n.blocksIndex.get (getBlockHash E bei.bl) = none ∧
              (popBlockFromBlockchain E now n).2.blocks = n.blocks) ∨
            (popBlockFromBlockchain E now n).2.blocks = n.blocks.dropLast)) := by
  unfold popBlockFromBlockchain
  split_ifs with hlen
  · exact ⟨SameFrame.refl n, rfl, Or.inl ⟨rfl, rfl⟩⟩
  cases hlast : n.blocks.getLast? with
  | none => exact ⟨SameFrame.refl n, rfl, Or.inl ⟨rfl, rfl⟩⟩
  | some bei =>
    dsimp only
    split_ifs with h1 h2 hhad
    · exact ⟨⟨rfl, rfl⟩, rfl, Or.inl ⟨rfl, rfl⟩⟩
    · exact ⟨⟨rfl, rfl⟩, rfl, Or.inl ⟨rfl, rfl⟩⟩
    · exact ⟨⟨rfl, rfl⟩, rfl, Or.inr ⟨bei, rfl, rfl, Or.inr rfl⟩⟩
    · exact ⟨⟨rfl, rfl⟩, rfl, Or.inr ⟨bei, rfl, rfl, Or.inl ⟨by simpa using hhad, rfl⟩⟩⟩

theorem attach_effect {E : Env} {n : Node} {prevId : Hash} {altChain : AltChain} {a : Attachment}
    (h : attach E n prevId altChain = some a) :
    a.altChain = altChain ∧
      ((∃ e, altChain.getLast? = some e ∧ a.prevHeight = e.2.height) ∨
        (altChain = [] ∧ n.blocksIndex.get prevId = some a.prevHeight ∧
          a.prevHeight < n.blocks.length)) := by
  unfold attach at h
  rcases List.eq_nil_or_concat' altChain with rfl | ⟨l, e, rfl⟩
  · simp only [List.head?_nil] at h
    split at h
    · simp at h
    · rename_i k hk
      split at h
      · simp at h
      · rename_i bei hbei
        obtain rfl := Option.some.inj h
        exact ⟨rfl, Or.inr ⟨rfl, hk, (List.getElem?_eq_some_iff.mp hbei).1⟩⟩
  · obtain ⟨front, hfront⟩ : ∃ front, (l ++ [e]).head? = some front := by
      cases l <;> simp
    have hlast : (l ++ [e]).getLast? = some e := by simp
    simp only [hfront, hlast] at h
    split_ifs at h
    split at h
    · simp at h
    · split_ifs at h
      obtain rfl := Option.some.inj h
      exact ⟨rfl, Or.inl ⟨e, hlast, rfl⟩⟩

/-- What an answer of the proof-of-work part of `handle_alternative_block` consists of. -/
theorem altProofOfWork_some {E : Env} {n : Node} {b : Block} {a : Attachment}
    {bei : BlockExtendedInfo} {diff : WideDifficulty} {pow : Hash}
    (h : altProofOfWork E n b a = some (bei, diff, pow)) :
    ∃ connection patches, a.connectionHeight ≠ 0 ∧
      n.blocks[a.connectionHeight]? = some connection ∧
      mainLinePatches E (n.blocks.drop a.connectionHeight) ∅ = some patches ∧
      bei = ⟨b, a.prevHeight + 1, 0, 0, 0, 0,
        connection.scratchOffset + (altScratchpad E a.branch).1.length⟩ ∧
      diff = getNextDifficultyForAlternativeChain n.blocks a.branch (a.prevHeight + 1) ∧ diff ≠ 0 ∧
      pow = getBlockLonghash E b (a.prevHeight + 1)
        (altScratchpadAccessor n.scratchpad.getScratchpad connection.scratchOffset bei.scratchOffset
          (altScratchpad E a.branch).1
          (mergeBelow connection.scratchOffset (altScratchpad E a.branch).2 patches)) := by
  unfold altProofOfWork at h
  by_cases h0 : a.connectionHeight = 0
  · simp [h0] at h
  cases hc : n.blocks[a.connectionHeight]? with
  | none => simp [h0, hc] at h
  | some connection =>
    by_cases h1 : connection.scratchOffset + (altScratchpad E a.branch).1.length = 0
    · simp [h0, hc, h1] at h
    cases hm : mainLinePatches E (n.blocks.drop a.connectionHeight) ∅ with
    | none => simp [h0, hc, hm] at h
    | some patches =>
      by_cases h2 : getNextDifficultyForAlternativeChain n.blocks a.branch (a.prevHeight + 1) = 0
      · simp [h0, hc, hm, h2] at h
      simp only [h0, hc, h1, hm, h2, if_false] at h
      obtain ⟨rfl, hrest⟩ := Prod.mk.inj (Option.some.inj h)
      obtain ⟨rfl, rfl⟩ := Prod.mk.inj hrest
      exact ⟨connection, patches, h0, rfl, rfl, rfl, rfl, h2, rfl⟩

/-- What it takes for `handle_alternative_block` to append a block to its branch. -/
theorem addAlternativeBlock_ok {E : Env} {bvc : BlockVerificationContext} {n n' : Node}
    {b : Block} {a : Attachment} {altChain : AltChain}
    (h : addAlternativeBlock E bvc n b a = .ok (altChain, n')) :
    ∃ bei diff pow, altProofOfWork E n b a = some (bei, diff, pow) ∧
      timestampsAccept (altTimestamps n.blocks (a.connectionHeight - 1) a.branch) b = true ∧
      checkHash pow diff = true ∧
      (n.checkpoints.isInCheckpointZone bei.height = true →
        n.checkpoints.checkBlock bei.height (getBlockHash E b) = true) ∧
      prevalidateMinerTransaction b bei.height = true ∧
      n.alternativeChains.get (getBlockHash E b) = none ∧
      altChain = a.altChain ++ [(getBlockHash E b,
        { bei with cumulativeDifficulty := a.prevDifficulty + diff })] ∧
      n'.toChainStores = n.toChainStores ∧ n'.checkpoints = n.checkpoints ∧
      n'.alternativeChains = n.alternativeChains.set (getBlockHash E b)
        { bei with cumulativeDifficulty := a.prevDifficulty + diff } := by
  obtain ⟨hacc, hs, hf⟩ :=
    checkBlockTimestamp_spec E n (altTimestamps n.blocks (a.connectionHeight - 1) a.branch) b
  unfold addAlternativeBlock at h
  generalize checkBlockTimestamp E n (altTimestamps n.blocks (a.connectionHeight - 1) a.branch) b = r
    at h hacc hs hf
  have hpow : altProofOfWork E r.2 b a = altProofOfWork E n b a := by
    simp only [altProofOfWork, hs]
  simp only [hpow, hf.checkpoints, hf.alternativeChains] at h
  split_ifs at h with h1
  cases hp : altProofOfWork E n b a with
  | none => simp [hp] at h
  | some q =>
    obtain ⟨bei, diff, pow⟩ := q
    simp only [hp] at h
    split_ifs at h with h2 h3 h4
    cases hg : n.alternativeChains.get (getBlockHash E b) with
    | some _ => simp [hg] at h
    | none =>
      simp only [hg] at h
      obtain ⟨rfl, rfl⟩ := Prod.mk.inj (Except.ok.inj h)
      refine ⟨bei, diff, pow, rfl, ?_, by simpa using h2, ?_, by simpa using h4, rfl, rfl, hs,
        rfl, rfl⟩
      · rw [← hacc]
        simpa using h1
      · intro hz
        rw [hz] at h3
        simpa using h3

/-- A refused alternative block changes nothing but the flag, which may have been set for the height
it was attached at; the flag is set so for one that is taken. -/
theorem addAlternativeBlock_effect (E : Env) (bvc : BlockVerificationContext) (n : Node) (b : Block)
    (a : Attachment) :
    match addAlternativeBlock E bvc n b a with
    | .error r => r.1 = false ∧ r.2.2.toChainStores = n.toChainStores ∧ SameFrame n r.2.2 ∧
        (r.2.2.isInCheckpointZone = n.isInCheckpointZone ∨
          r.2.2.isInCheckpointZone = n.checkpoints.isInCheckpointZone (a.prevHeight + 1))
    | .ok r => r.2.toChainStores = n.toChainStores ∧ r.2.checkpoints = n.checkpoints ∧
        r.2.isInCheckpointZone = n.checkpoints.isInCheckpointZone (a.prevHeight + 1) := by
  obtain ⟨-, hs, hf⟩ :=
    checkBlockTimestamp_spec E n (altTimestamps n.blocks (a.connectionHeight - 1) a.branch) b
  have hz := checkBlockTimestamp_effect E n
    (altTimestamps n.blocks (a.connectionHeight - 1) a.branch) b
  unfold addAlternativeBlock
  generalize checkBlockTimestamp E n (altTimestamps n.blocks (a.connectionHeight - 1) a.branch) b = q
    at hs hf hz
  obtain ⟨ok, n₁⟩ := q
  cases ok with
  | false => exact ⟨rfl, hs, hf, Or.inl hz⟩
  | true =>
    simp only [Bool.not_true, Bool.false_eq_true, if_false]
    cases hp : altProofOfWork E n₁ b a with
    | none => exact ⟨rfl, hs, hf, Or.inl hz⟩
    | some q =>
      obtain ⟨bei, diff, pow⟩ := q
      obtain ⟨_, _, -, -, -, hbei, -⟩ := altProofOfWork_some hp
      have hzone : n₁.checkpoints.isInCheckpointZone bei.height =
          n.checkpoints.isInCheckpointZone (a.prevHeight + 1) := by
        have hcp : n₁.checkpoints = n.checkpoints := hf.checkpoints
        rw [hcp, hbei]
      dsimp only
      split_ifs
      · exact ⟨rfl, hs, hf, Or.inl hz⟩
      · exact ⟨rfl, hs, ⟨hf.1, hf.2⟩, Or.inr hzone⟩
      · exact ⟨rfl, hs, ⟨hf.1, hf.2⟩, Or.inr hzone⟩
      · cases n₁.alternativeChains.get (getBlockHash E b) with
        | some _ => exact ⟨rfl, hs, ⟨hf.1, hf.2⟩, Or.inr hzone⟩
        | none => exact ⟨hs, hf.2, hzone⟩

/-- An alternative block that was taken is the last of its branch, at the height it declares. -/
theorem addAlternativeBlock_taken {E : Env} {bvc : BlockVerificationContext} {n n' : Node}
    {b : Block} {a : Attachment} {altChain : AltChain}
    (h : addAlternativeBlock E bvc n b a = .ok (altChain, n')) :
    n'.toChainStores = n.toChainStores ∧ n'.checkpoints = n.checkpoints ∧
      n'.isInCheckpointZone = n.checkpoints.isInCheckpointZone (a.prevHeight + 1) ∧
      ∃ bei : BlockExtendedInfo, bei.bl = b ∧ bei.height = a.prevHeight + 1 ∧
        prevalidateMinerTransaction b bei.height = true ∧
        (n.checkpoints.isInCheckpointZone bei.height = true →
          n.checkpoints.checkBlock bei.height (getBlockHash E b) = true) ∧
        n.alternativeChains.get (getBlockHash E b) = none ∧
        altChain = a.altChain ++ [(getBlockHash E b, bei)] ∧
        n'.alternativeChains = n.alternativeChains.set (getBlockHash E b) bei := by
  obtain ⟨bei, diff, pow, hpow, -, -, hcp, hminer, hnew, halt, hs, hc, ha⟩ :=
    addAlternativeBlock_ok h
  obtain ⟨_, _, -, -, -, hbei, -⟩ := altProofOfWork_some hpow
  refine ⟨hs, hc, ?_, { bei with cumulativeDifficulty := a.prevDifficulty + diff }, ?_, ?_, hminer,
    hcp, hnew, halt, ha⟩
  · have hzone := addAlternativeBlock_effect E bvc n b a
    rw [h] at hzone
    exact hzone.2.2
  · rw [hbei]
  · rw [hbei]

theorem altChainGo_get {alts : Map Hash BlockExtendedInfo} {k : ℕ} {id : Hash} {acc l : AltChain}
    (h : altChainGo alts k id acc = some l) (hacc : ∀ e ∈ acc, alts.get e.1 = some e.2) :
    ∀ e ∈ l, alts.get e.1 = some e.2 := by
  induction k generalizing id acc with
  | zero => simp [altChainGo] at h
  | succ k ih =>
    unfold altChainGo at h
    cases hget : alts.get id with
    | none =>
      simp only [hget, Option.some.injEq] at h
      rwa [← h]
    | some bei =>
      simp only [hget] at h
      refine ih h fun e he => ?_
      rcases List.mem_cons.mp he with rfl | he
      · exact hget
      · exact hacc e he

theorem altChainOf_get {alts : Map Hash BlockExtendedInfo} {id : Hash} {l : AltChain}
    (h : altChainOf alts id = some l) : ∀ e ∈ l, alts.get e.1 = some e.2 :=
  altChainGo_get h (by simp)

/-- The ways a call of `handle_alternative_block` ends: at once, without adding the block, or with the block
on its branch and perhaps a switch to it. -/
theorem handleAlternativeBlock_steps {E : Env} {now fuel : ℕ} {bvc : BlockVerificationContext} {n : Node}
    {b : Block} {r : Bool × BlockVerificationContext × Node}
    (hr : handleAlternativeBlock E now (fuel + 1) bvc n b = some r) :
    (r.2.2 = n ∧ (r.1 = true → n.alternativeChains.get b.prevId = none ∧ n.blocksIndex.get b.prevId = none)) ∨
    ∃ a, n.checkpoints.isHeightPassedZone (getBlockHeight b) (n.blocks.length - 1) = false ∧
      altChainOf n.alternativeChains b.prevId = some a.altChain ∧
      attach E n b.prevId a.altChain = some a ∧
      (addAlternativeBlock E bvc n b a = .error r ∨
        ∃ altChain n₁, addAlternativeBlock E bvc n b a = .ok (altChain, n₁) ∧
          ((¬topDifficulty n₁.blocks < topDifficulty (altChain.map Prod.snd) ∧ r = (true, bvc, n₁)) ∨
            (topDifficulty n₁.blocks < topDifficulty (altChain.map Prod.snd) ∧
              switchToAlternativeBlockchain E now
                (fun n b => (handleAlternativeBlock E now fuel {} n b).map fun r => (r.1, r.2.2)) n₁
                altChain = some (r.1, r.2.2)))) := by
  unfold handleAlternativeBlock at hr
  split_ifs at hr with h1 h2
  · rw [← Option.some.inj hr]
    exact Or.inl ⟨rfl, fun h => by cases h⟩
  · rw [← Option.some.inj hr]
    simp only [Bool.and_eq_true, Option.isNone_iff_eq_none] at h2
    exact Or.inl ⟨rfl, fun _ => h2⟩
  cases hchain : altChainOf n.alternativeChains b.prevId with
  | none => simp [hchain] at hr
  | some altChain =>
    simp only [hchain] at hr
    cases hatt : attach E n b.prevId altChain with
    | none =>
      simp only [hatt, Option.some.injEq] at hr
      rw [← hr]
      exact Or.inl ⟨rfl, fun h => by cases h⟩
    | some a =>
      obtain ⟨rfl, -⟩ := attach_effect hatt
      simp only [hatt] at hr
      refine Or.inr ⟨a, by simpa using h1, rfl, hatt, ?_⟩
      cases ha : addAlternativeBlock E bvc n b a with
      | error q =>
        simp only [ha, Option.some.injEq] at hr
        rw [← hr]
        exact Or.inl rfl
      | ok q =>
        obtain ⟨altChain', n₁⟩ := q
        simp only [ha] at hr
        refine Or.inr ⟨altChain', n₁, rfl, ?_⟩
        split_ifs at hr with h3
        · refine Or.inr ⟨h3, ?_⟩
          split at hr
          · simp at hr
          all_goals
            rename_i n₂ hsw
            rw [← Option.some.inj hr]
            exact hsw
        · exact Or.inl ⟨h3, (Option.some.inj hr).symm⟩

/-- `P` outlives the pushes and pops of a switch and of its rollback. Blocks of `S'` may be pushed, and what
is popped down to a height of `R` are blocks of `S`. -/
structure MoveInvariant (E : Env) (now : ℕ) (P : Node → Prop) (S S' : Block → Prop) (R : ℕ → Prop) :
    Prop where
  push : ∀ n bvc bl, P n → S' bl → P (handleBlockToMainChain E now bvc n bl).2.2
  pop : ∀ n s, P n → R s → s < n.blocks.length → P (popBlockFromBlockchain E now n).2
  invalid : ∀ n bei id, P n → P (addBlockAsInvalid n bei id)
  erase : ∀ n id, P n → P { n with alternativeChains := n.alternativeChains.erase id }
  main : ∀ n s h bei, P n → R s → s ≤ h → n.blocks[h]? = some bei → S bei.bl

namespace MoveInvariant

variable {E : Env} {now : ℕ} {P : Node → Prop} {S S' : Block → Prop} {R : ℕ → Prop}
  (h : MoveInvariant E now P S S' R)
include h

theorem popBlocks {s : ℕ} (hs : R s) (k : ℕ) (popped : List Block) {n : Node} (hn : P n)
    (hpopped : ∀ bl ∈ popped, S bl) :
    match Boolberry.popBlocks E now s k n popped with
    | .ok r => P r.2 ∧ ∀ bl ∈ r.1, S bl
    | .error n' => P n' := by
  induction k generalizing n popped with
  | zero => exact ⟨hn, hpopped⟩
  | succ k ih =>
    unfold Boolberry.popBlocks
    cases hbei : n.blocks[s + k]? with
    | none => exact hn
    | some bei =>
      have hlt := (List.getElem?_eq_some_iff.mp hbei).1
      have hpop := h.pop n s hn hs (by omega)
      have hq := h.main n s (s + k) bei hn hs (by omega) hbei
      cases hr : (popBlockFromBlockchain E now n).1 with
      | true =>
        simp only [hr, if_true]
        refine ih _ hpop fun bl hbl => ?_
        rcases List.mem_cons.mp hbl with rfl | hbl
        · exact hq
        · exact hpopped bl hbl
      | false =>
        simp only [hr]
        exact hpop

theorem returnOriginalChain {l : List Block} {n : Node} (hn : P n) (hl : ∀ bl ∈ l, S' bl) :
    P (Boolberry.returnOriginalChain E now l n).2 := by
  induction l generalizing n with
  | nil => exact hn
  | cons bl l ih =>
    have hpush := h.push n {} bl hn (hl bl (by simp))
    unfold Boolberry.returnOriginalChain
    simp only
    split
    · exact ih hpush fun bl' hbl' => hl bl' (by simp [hbl'])
    · exact hpush

theorem rollbackBlockchainSwitching {s : ℕ} (hs : R s) {l : List Block} {n : Node} (hn : P n)
    (hl : ∀ bl ∈ l, S' bl) : P (Boolberry.rollbackBlockchainSwitching E now n l s).2 := by
  have hpop := h.popBlocks hs (n.blocks.length - s) [] hn (by simp)
  unfold Boolberry.rollbackBlockchainSwitching
  split at hpop
  · rename_i r hr
    rw [hr]
    exact h.returnOriginalChain hpop.1 hl
  · rename_i n' hr
    rw [hr]
    exact hpop

theorem orphanRest {n : Node} (l : AltChain) (hn : P n) : P (Boolberry.orphanRest n l) := by
  unfold Boolberry.orphanRest
  cases l.head? with
  | none => exact hn
  | some first =>
    simp only
    induction l generalizing n with
    | nil => exact hn
    | cons e l ih =>
      rw [List.foldl_cons]
      exact ih (h.erase _ _ (h.invalid n first.2 first.1 hn))

theorem connectAltChain {s : ℕ} (hs : R s) {l : List Block} (hl : ∀ bl ∈ l, S' bl)
    {altChain : AltChain} {n : Node} (hn : P n) (halt : ∀ e ∈ altChain, S' e.2.bl) :
    match Boolberry.connectAltChain E now l s altChain n with
    | .ok n' => P n'
    | .error n' => P n' := by
  induction altChain generalizing n with
  | nil => exact hn
  | cons e rest ih =>
    have hpush := h.push n {} e.2.bl hn (halt e (by simp))
    unfold Boolberry.connectAltChain
    cases hr : (handleBlockToMainChain E now {} n e.2.bl).1 &&
        (handleBlockToMainChain E now {} n e.2.bl).2.1.addedToMainChain with
    | true =>
      simp only [hr, if_true]
      exact ih hpush fun e' he' => halt e' (by simp [he'])
    | false =>
      simp only [hr]
      have hback := h.rollbackBlockchainSwitching hs hpush hl
      have hinvalid := h.invalid _ e.2 (getBlockHash E e.2.bl) hback
      exact h.orphanRest rest (h.erase _ e.1 hinvalid)

theorem eraseAltChain {n : Node} (l : AltChain) (hn : P n) : P (Boolberry.eraseAltChain n l) := by
  unfold Boolberry.eraseAltChain
  induction l generalizing n with
  | nil => exact hn
  | cons e l ih => exact ih (h.erase n e.1 hn)

theorem switchToAlternativeBlockchain (hS : ∀ bl, S bl → S' bl)
    {handle : Node → Block → Option (Bool × Node)} {altChain : AltChain} {n : Node} {r : Bool × Node}
    (hn : P n) (halt : ∀ e ∈ altChain, S' e.2.bl)
    (hfront : ∀ front, altChain.head? = some front → R front.2.height)
    (hold : ∀ front popped n₀ n₁ q, altChain.head? = some front → front.2.height < n.blocks.length →
      Boolberry.popBlocks E now front.2.height (n.blocks.length - front.2.height) n [] = .ok (popped, n₀) →
      Boolberry.connectAltChain E now popped front.2.height altChain n₀ = .ok n₁ → P n₁ →
      (∀ bl ∈ popped, S bl) → Boolberry.pushOldChain handle popped n₁ = some q → P q.2)
    (hr : Boolberry.switchToAlternativeBlockchain E now handle n altChain = some r) : P r.2 := by
  unfold Boolberry.switchToAlternativeBlockchain at hr
  cases hhead : altChain.head? with
  | none =>
    simp only [hhead, Option.some.injEq] at hr
    rw [← hr]
    exact hn
  | some front =>
    have hs := hfront front hhead
    simp only [hhead] at hr
    split_ifs at hr with hlen
    · rw [← Option.some.inj hr]
      exact hn
    have hpop := h.popBlocks hs (n.blocks.length - front.2.height) [] hn (by simp)
    cases hp : Boolberry.popBlocks E now front.2.height (n.blocks.length - front.2.height) n []
      with
    | error n₁ =>
      simp only [hp, Option.some.injEq] at hr hpop
      rw [← hr]
      exact hpop
    | ok q =>
      obtain ⟨popped, n₁⟩ := q
      simp only [hp] at hr hpop
      obtain ⟨hn₁, hpopped⟩ := hpop
      have hcon := h.connectAltChain hs (fun bl hbl => hS bl (hpopped bl hbl)) hn₁ halt
      cases hc : Boolberry.connectAltChain E now popped front.2.height altChain n₁ with
      | error n₂ =>
        simp only [hc, Option.some.injEq] at hr hcon
        rw [← hr]
        exact hcon
      | ok n₂ =>
        simp only [hc] at hr hcon
        cases ho : Boolberry.pushOldChain handle popped n₂ with
        | none => simp [ho] at hr
        | some q =>
          have hq := hold front popped n₁ n₂ q hhead (by omega) hp hc hcon hpopped ho
          obtain ⟨b, n₃⟩ := q
          cases b with
          | true =>
            simp only [ho, Option.some.injEq] at hr
            rw [← hr]
            exact h.eraseAltChain altChain hq
          | false =>
            simp only [ho, Option.some.injEq] at hr
            rw [← hr]
            exact h.rollbackBlockchainSwitching hs hq fun bl hbl => hS bl (hpopped bl hbl)

end MoveInvariant

/-- `P` outlives every step of a call to `handle_alternative_block` for a block of `Q`. Blocks of `Q'`
may be pushed, and the branches a switch is for start at heights of `R`. -/
structure AltInvariant (E : Env) (now : ℕ) (P : Node → Prop) (Q Q' : Block → Prop) (R : ℕ → Prop) :
    Prop where
  push : ∀ n bvc bl, P n → Q' bl → P (handleBlockToMainChain E now bvc n bl).2.2
  pop : ∀ n s, P n → R s → s < n.blocks.length → P (popBlockFromBlockchain E now n).2
  invalid : ∀ n bei id, P n → P (addBlockAsInvalid n bei id)
  erase : ∀ n id, P n → P { n with alternativeChains := n.alternativeChains.erase id }
  add : ∀ bvc n b a, P n → Q b →
    n.checkpoints.isHeightPassedZone (getBlockHeight b) (n.blocks.length - 1) = false →
    altChainOf n.alternativeChains b.prevId = some a.altChain →
    attach E n b.prevId a.altChain = some a →
    match addAlternativeBlock E bvc n b a with
    | .error r => P r.2.2
    | .ok r => P r.2 ∧ ∀ front, r.1.head? = some front → R front.2.height
  main : ∀ n s h bei, P n → R s → s ≤ h → n.blocks[h]? = some bei → Q bei.bl ∧ Q' bei.bl
  alt : ∀ n id bei, P n → n.alternativeChains.get id = some bei → Q' bei.bl

namespace AltInvariant

variable {E : Env} {now : ℕ} {P : Node → Prop} {Q Q' : Block → Prop} {R : ℕ → Prop}
  (h : AltInvariant E now P Q Q' R)
include h

/-- The blocks that a switch pops may be handled again in either way. -/
theorem toMove : MoveInvariant E now P (fun bl => Q bl ∧ Q' bl) Q' R where
  push := h.push
  pop := h.pop
  invalid := h.invalid
  erase := h.erase
  main := h.main

omit h in
theorem pushOldChain {handle : Node → Block → Option (Bool × Node)}
    (hh : ∀ n b r, P n → Q b → handle n b = some r → P r.2) {l : List Block} {n : Node}
    {r : Bool × Node} (hn : P n) (hl : ∀ bl ∈ l, Q bl)
    (hr : Boolberry.pushOldChain handle l n = some r) : P r.2 := by
  induction l generalizing n with
  | nil =>
    obtain rfl := Option.some.inj hr
    exact hn
  | cons bl l ih =>
    unfold Boolberry.pushOldChain at hr
    cases hb : handle n bl with
    | none => simp [hb] at hr
    | some q =>
      obtain ⟨b, n'⟩ := q
      have hn' : P n' := hh n bl _ hn (hl bl (by simp)) hb
      cases b with
      | true =>
        simp only [hb] at hr
        exact ih hn' (fun bl' hbl' => hl bl' (by simp [hbl'])) hr
      | false =>
        simp only [hb, Option.some.injEq] at hr
        rw [← hr]
        exact hn'

theorem switchToAlternativeBlockchain {handle : Node → Block → Option (Bool × Node)}
    (hh : ∀ n b r, P n → Q b → handle n b = some r → P r.2) {altChain : AltChain} {n : Node}
    {r : Bool × Node} (hn : P n)
    (halt : ∀ e ∈ altChain, n.alternativeChains.get e.1 = some e.2)
    (hfront : ∀ front, altChain.head? = some front → R front.2.height)
    (hr : Boolberry.switchToAlternativeBlockchain E now handle n altChain = some r) : P r.2 :=
  h.toMove.switchToAlternativeBlockchain (fun _ hbl => hbl.2) hn (fun e he => h.alt n _ _ hn (halt e he)) hfront
    (fun _ _ _ _ _ _ _ _ _ hn₁ hpopped ho => pushOldChain hh hn₁ (fun bl hbl => (hpopped bl hbl).1) ho) hr

/-- A call of `handle_alternative_block` leaves the blocks where they are or comes to a switch. -/
theorem handleAlternativeBlock_cases {fuel : ℕ} {bvc : BlockVerificationContext} {n : Node}
    {b : Block} {r : Bool × BlockVerificationContext × Node} (hn : P n) (hb : Q b)
    (hr : Boolberry.handleAlternativeBlock E now (fuel + 1) bvc n b = some r) :
    (P r.2.2 ∧ r.2.2.toChainStores = n.toChainStores) ∨
    ∃ n₁ altChain ok, P n₁ ∧ n₁.toChainStores = n.toChainStores ∧
      (∀ e ∈ altChain, n₁.alternativeChains.get e.1 = some e.2) ∧
      (∀ front, altChain.head? = some front → R front.2.height) ∧
      Boolberry.switchToAlternativeBlockchain E now
        (fun n b => (Boolberry.handleAlternativeBlock E now fuel {} n b).map fun r => (r.1, r.2.2))
        n₁ altChain = some (ok, r.2.2) := by
  rcases handleAlternativeBlock_steps hr with ⟨hr, -⟩ | ⟨a, hpass, hchain, hatt, hadded⟩
  · rw [hr]
    exact Or.inl ⟨hn, rfl⟩
  have hadd := h.add bvc n b a hn hb hpass hchain hatt
  have heff := addAlternativeBlock_effect E bvc n b a
  rcases hadded with ha | ⟨altChain, n₁, ha, hcase⟩
  · rw [ha] at hadd heff
    exact Or.inl ⟨hadd, heff.2.1⟩
  rw [ha] at hadd heff
  rcases hcase with ⟨-, rfl⟩ | ⟨-, hsw⟩
  · exact Or.inl ⟨hadd.1, heff.1⟩
  -- the branch is heavier; all of it is among the alternative blocks
  obtain ⟨-, -, -, bei, -, -, -, -, hnew, rfl, halts⟩ := addAlternativeBlock_taken ha
  refine Or.inr ⟨n₁, _, _, hadd.1, heff.1, fun e he => ?_, hadd.2, hsw⟩
  rw [halts, Map.get_set]
  rcases List.mem_append.mp he with he | he
  · have hget := altChainOf_get hchain e he
    split_ifs with hid
    · rw [hid, hnew] at hget
      cases hget
    · exact hget
  · rw [List.mem_singleton.mp he, if_pos rfl]

/-- The induction is on the depth of the calls that a switch makes. -/
theorem handleAlternativeBlock {fuel : ℕ} {bvc : BlockVerificationContext} {n : Node} {b : Block}
    {r : Bool × BlockVerificationContext × Node} (hn : P n) (hb : Q b)
    (hr : Boolberry.handleAlternativeBlock E now fuel bvc n b = some r) : P r.2.2 := by
  induction fuel generalizing bvc n b r with
  | zero => simp [Boolberry.handleAlternativeBlock] at hr
  | succ fuel ih =>
    rcases h.handleAlternativeBlock_cases hn hb hr with
      ⟨hr, -⟩ | ⟨n₁, altChain, ok, hn₁, -, hget, hfront, hsw⟩
    · exact hr
    · refine h.switchToAlternativeBlockchain ?_ hn₁ hget hfront hsw
      intro n b r hn hb hr
      obtain ⟨q, hq, rfl⟩ := Option.map_eq_some_iff.mp hr
      exact ih hn hb hq

theorem addNewBlock {fuel : ℕ} {bvc : BlockVerificationContext} {n : Node} {b : Block}
    {r : Bool × BlockVerificationContext × Node} (hn : P n)
    (hb : b.prevId ≠ getTopBlockId E n.blocks → Q b)
    (hb' : b.prevId = getTopBlockId E n.blocks → Q' b)
    (hr : Boolberry.addNewBlock E now fuel bvc n b = some r) : P r.2.2 := by
  unfold Boolberry.addNewBlock at hr
  split_ifs at hr with h1 h2
  · rw [← Option.some.inj hr]
    exact hn
  · exact h.handleAlternativeBlock hn (hb h2) hr
  · rw [← Option.some.inj hr]
    exact h.push n bvc b hn (hb' (not_not.mp h2))

end AltInvariant

end Boolberry
