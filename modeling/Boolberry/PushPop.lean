import Boolberry.ChainRefinement

/-!
# Pushing and popping

On a node that represents a chain, `handle_block_to_main_chain` appends a block
that is valid next or leaves the chain alone, and `pop_block_from_blockchain`
takes the last block off. Either way only spent flags of outputs that the block
refers to can differ from what they were.
-/

namespace Boolberry
open KeyValue TxMemoryPool

theorem purgeBlockDataFromBlockchain_spec (v : ChainView) (bl : Block) (h : ℕ) {G : Flags}
    {l es : List TxEntry} {s : TxState}
    (hrep : TxRep v.env G (l ++ [coinbaseOf v.env bl h] ++ es) s)
    (hids : es.map TxEntry.id <+: bl.txHashes) :
    ∃ s', purgeBlockDataFromBlockchain v s bl es.length = (true, s') ∧
      TxRep v.env (G.mark (blockRefs l
        (coinbaseOf v.env bl h :: es)) false) l s' ∧
      knownIn l s'.pool =
        knownIn (l ++ [coinbaseOf v.env bl h] ++ es) s.pool := by
  rw [List.append_assoc, List.singleton_append] at hrep ⊢
  obtain ⟨s', hfold, hrep', hknown⟩ := foldl_purgeStep v _ hrep
  refine ⟨s', ?_, hrep', hknown⟩
  have hle : es.length ≤ bl.txHashes.length := by simpa using hids.length_le
  have htake : bl.txHashes.take es.length = es.map TxEntry.id := by
    have := List.prefix_iff_eq_take.mp hids
    rw [List.length_map] at this
    exact this.symm
  simp only [purgeBlockDataFromBlockchain, Nat.not_lt.mpr hle, if_false, htake]
  rw [← hfold, List.map_cons, List.reverse_cons]

/-- The flags that a block leaves behind when it is purged from the middle of its transactions. -/
theorem purged_flags {E : Env} {F : Flags} {l es : List TxEntry} {R : List (Hash × ℕ)}
    (hl : Linked E (l ++ es)) {te : TxEntry} (hte : te ∈ l) (n : ℕ) :
    ((flagsAfter F l es).mark R false).mark (blockRefs l es) false te.id n =
      F.mark (blockRefs l es ++ R) false te.id n := by
  by_cases h1 : (te.id, n) ∈ blockRefs l es
  · simp [Flags.mark, h1]
  · by_cases h2 : (te.id, n) ∈ R
    · simp [Flags.mark, h2]
    · have := flagsAfter_of_mem (F := F) n hl hte
      simp only [Flags.mark, h1, h2, if_false, List.mem_append, or_self] at this ⊢
      exact this

/-- What pushing and popping leave alone. -/
structure SameFrame (n n' : Node) : Prop where
  alternativeChains : n'.alternativeChains = n.alternativeChains
  checkpoints : n'.checkpoints = n.checkpoints

theorem SameFrame.refl (n : Node) : SameFrame n n := ⟨rfl, rfl⟩

theorem SameFrame.trans {n n' n'' : Node} (h : SameFrame n n') (h' : SameFrame n' n'') :
    SameFrame n n'' :=
  ⟨h'.alternativeChains.trans h.alternativeChains, h'.checkpoints.trans h.checkpoints⟩

/-- The zone the next block of a chain falls in. -/
def zoneAt (cps : Checkpoints) (chain : List ChainBlock) : Bool :=
  cps.isInCheckpointZone chain.length

/-- A block was pushed: it was valid next, and the node holds the longer chain. -/
structure Pushed (E : Env) (now : ℕ) (F : Flags) (chain : List ChainBlock) (n n' : Node)
    (c : ChainBlock) : Prop where
  valid : ValidNext E n.checkpoints now chain c
  rep : Rep E (flagsAfter F (entriesOf E chain) (c.entries E)) (chain ++ [c]) n'.toChainStores
  fetched : Fetched (Known E chain n.toChainStores) (zoneAt n.checkpoints chain) chain.length
    c.bei.bl.txHashes c.txs
  recalls : Recalls (zoneAt n.checkpoints chain) c.bei.bl.txHashes
    (Known E chain n.toChainStores) (Known E (chain ++ [c]) n'.toChainStores)
  frame : SameFrame n n'

/-- `handle_block_to_main_chain` gets as far as taking the transaction `id` of the block. -/
structure BlockTakes (E : Env) (now : ℕ) (chain : List ChainBlock) (n : Node) (bl : Block)
    (id : Hash) : Prop where
  header : HeaderOK E n.checkpoints now (blocksOf chain) bl
  coinbase : Addable E (entriesOf E chain) (coinbaseOf E bl chain.length)
  taken : Taken E now chain.length (zoneAt n.checkpoints chain) n.txs.pool
    (entriesOf E chain ++ [coinbaseOf E bl chain.length]) bl.txHashes id

/-- A block was refused: the node holds the same chain, with the flags of some outputs cleared that
the first transactions of the block refer to. -/
structure Refused (E : Env) (now : ℕ) (F : Flags) (chain : List ChainBlock) (n n' : Node) (bl : Block) : Prop
    where
  rep : ∃ R es, Rep E (F.mark R false) chain n'.toChainStores ∧
    Fetched (Known E chain n.toChainStores) (zoneAt n.checkpoints chain) chain.length
      bl.txHashes es ∧
    Tried E now chain.length (zoneAt n.checkpoints chain)
      (entriesOf E chain ++ [coinbaseOf E bl chain.length]) es ∧
    (es ≠ [] → isCoinbase bl.minerTx = true ∧
      Addable E (entriesOf E chain) (coinbaseOf E bl chain.length)) ∧
    R ⊆ blockRefs (entriesOf E chain ++
      [coinbaseOf E bl chain.length]) es
  recalls : Recalls (zoneAt n.checkpoints chain) bl.txHashes
    (Known E chain n.toChainStores) (Known E chain n'.toChainStores)
  cuts : ∀ id d, n.txs.pool.transactions.get id = some d →
    (BlockTakes E now chain n bl id ∧
      Known E chain n'.toChainStores id = some (cutIn (zoneAt n.checkpoints chain) d.tx)) ∨
    (¬BlockTakes E now chain n bl id ∧ Known E chain n'.toChainStores id = some d.tx)
  frame : SameFrame n n'

theorem known_of_pool {E : Env} {chain : List ChainBlock} {s : ChainStores} {id : Hash}
    {d : TxDetails} (hd : s.txs.pool.transactions.get id = some d) :
    Known E chain s id = some d.tx := by
  simp [Known, knownIn, hd]

theorem Refused.of_same {E : Env} {now : ℕ} {F : Flags} {chain : List ChainBlock} {n n' : Node} {bl : Block}
    (hrep : Rep E F chain n.toChainStores) (hs : n'.toChainStores = n.toChainStores)
    (hno : ¬HeaderOK E n.checkpoints now (blocksOf chain) bl) (hf : SameFrame n n') :
    Refused E now F chain n n' bl := by
  refine ⟨⟨[], [], ?_, Fetched.nil .., Or.inl trivial, by simp, by simp⟩, ?_, fun id d hd => ?_, hf⟩
  · rw [Flags.mark_nil, hs]
    exact hrep
  · rw [hs]
    exact Recalls.refl _ _ _
  · rw [hs]
    exact Or.inr ⟨fun ht => hno ht.header, known_of_pool hd⟩

theorem addBlockAsInvalid_stores (n : Node) (bei : BlockExtendedInfo) (h : Hash) :
    (addBlockAsInvalid n bei h).toChainStores = n.toChainStores ∧
      SameFrame n (addBlockAsInvalid n bei h) := by
  unfold addBlockAsInvalid
  split
  · exact ⟨rfl, SameFrame.refl n⟩
  · exact ⟨rfl, rfl, rfl⟩

section Push

variable {E : Env} {now : ℕ} {F : Flags} {chain : List ChainBlock} {n : Node} {bl : Block}

theorem refused_of_purge (now : ℕ) {es es' : List TxEntry} {R : List (Hash × ℕ)} {s : TxState}
    {bvcNode : Node} (hrep : Rep E F chain n.toChainStores)
    (hh : HeaderOK E n.checkpoints now (blocksOf chain) bl)
    (hs : TxRep E ((flagsAfter F (entriesOf E chain)
      (coinbaseOf E bl chain.length :: es)).mark R false)
      (entriesOf E chain ++ [coinbaseOf E bl chain.length] ++ es) s)
    (hids : es.map TxEntry.id <+: bl.txHashes)
    (hfet : Fetched (Known E chain n.toChainStores) (zoneAt n.checkpoints chain) chain.length
      bl.txHashes es')
    (htried : Tried E now chain.length (zoneAt n.checkpoints chain)
      (entriesOf E chain ++ [coinbaseOf E bl chain.length]) es')
    (hsub : blockRefs (entriesOf E chain ++
      [coinbaseOf E bl chain.length]) es ++ R ⊆
      blockRefs (entriesOf E chain ++
        [coinbaseOf E bl chain.length]) es')
    (hrec : Recalls (zoneAt n.checkpoints chain) bl.txHashes (Known E chain n.toChainStores)
      (knownIn (entriesOf E chain ++
        [coinbaseOf E bl chain.length] ++ es) s.pool))
    (hcut : CutsTaken E now chain.length (zoneAt n.checkpoints chain) n.txs.pool
      (entriesOf E chain ++ [coinbaseOf E bl chain.length]) bl.txHashes
      (knownIn (entriesOf E chain ++ [coinbaseOf E bl chain.length] ++ es) s.pool))
    (hnode : bvcNode.toChainStores = { n.toChainStores with
      txs := (purgeBlockDataFromBlockchain (n.view E now) s bl es.length).2 })
    (hf : SameFrame n bvcNode) : Refused E now F chain n bvcNode bl := by
  obtain ⟨g, hg, -⟩ := vin_of_prevalidate hh.miner
  obtain ⟨s', hpurge, hrep', hknown⟩ := purgeBlockDataFromBlockchain_spec (n.view E now) bl _ hs hids
  rw [hpurge] at hnode
  have hlinked := hs.linked
  rw [List.append_assoc, List.singleton_append] at hlinked
  have hrefs : blockRefs (entriesOf E chain)
      (coinbaseOf E bl chain.length :: es) =
      blockRefs (entriesOf E chain ++
        [coinbaseOf E bl chain.length]) es := by
    simp only [blockRefs]
    rw [refsOf_gen hg, List.nil_append]
  have hknown' : Known E chain bvcNode.toChainStores =
      knownIn (entriesOf E chain ++ [coinbaseOf E bl chain.length] ++ es) s.pool := by
    rw [Known, hnode]
    exact hknown
  refine ⟨⟨_, es', ⟨?_, ?_, ?_, ?_⟩, hfet, htried,
    fun _ => ⟨isCoinbase_of_gen hg, hlinked.addable⟩, hsub⟩, ?_, fun id d hd => ?_, hf⟩
  · rw [hnode]
    exact hrep.blocks
  · rw [hnode]
    exact hrep.blocksIndex
  · rw [hnode]
    refine hrep'.congr fun te hte k => ?_
    have := purged_flags (F := F) (R := R) hlinked hte k
    rw [← hrefs]
    exact this
  · rw [hnode]
    exact hrep.scratchpad
  · rw [hknown']
    exact hrec
  · rw [hknown']
    rcases hcut id d hd with ⟨ht, hk⟩ | ⟨ht, hk⟩
    · exact Or.inl ⟨⟨hh, hlinked.addable, ht⟩, hk⟩
    · exact Or.inr ⟨fun hb => ht hb.taken, hk⟩

/-- The end of a push, once all transactions of the block are in. -/
theorem finishBlock_spec {st : TxLoop} (bvc : BlockVerificationContext)
    (hrep : Rep E F chain n.toChainStores)
    (hh : HeaderOK E n.checkpoints now (blocksOf chain) bl) {es : List TxEntry}
    (hcb : Addable E (entriesOf E chain) (coinbaseOf E bl chain.length))
    (hids : es.map TxEntry.id = bl.txHashes)
    (htxs : TxsOK E now chain.length (zoneAt n.checkpoints chain)
      (entriesOf E chain ++ [coinbaseOf E bl chain.length]) es)
    (hst : TxRep E (flagsAfter F (entriesOf E chain) (coinbaseOf E bl chain.length :: es))
      (entriesOf E chain ++ [coinbaseOf E bl chain.length] ++ es) st.state)
    (hfee : st.feeSummary = feesOf es 0)
    (hsize : st.cumulativeBlockSize = sizesOf es (getObjectBlobsize bl.minerTx))
    (hcount : st.txProcessedCount = es.length)
    (hfet : Fetched (Known E chain n.toChainStores) (zoneAt n.checkpoints chain) chain.length
      bl.txHashes es)
    (hrec : Recalls (zoneAt n.checkpoints chain) bl.txHashes (Known E chain n.toChainStores)
      (knownIn (entriesOf E chain ++ [coinbaseOf E bl chain.length] ++ es) st.state.pool))
    (hcut : CutsTaken E now chain.length (zoneAt n.checkpoints chain) n.txs.pool
      (entriesOf E chain ++ [coinbaseOf E bl chain.length]) bl.txHashes
      (knownIn (entriesOf E chain ++ [coinbaseOf E bl chain.length] ++ es) st.state.pool)) :
    let r := finishBlock E now bvc n bl (getDifficultyForNextBlock (blocksOf chain)) st
    (r.1 = true ∧ r.2.1 = { bvc with addedToMainChain := true } ∧
      ∃ c, c.bei.bl = bl ∧ c.txs = es ∧ Pushed E now F chain n r.2.2 c) ∨
    (r.1 = false ∧ r.2.1 = { bvc with verifivationFailed := true } ∧
      Refused E now F chain n r.2.2 bl ∧
      ∀ c, ValidNext E n.checkpoints now chain c → c.bei.bl = bl → c.txs ≠ es) := by
  intro r
  -- either failure purges the block
  have hpurged : ∀ n' : Node, n'.toChainStores = { n.toChainStores with
      txs := (purgeBlockDataFromBlockchain (n.view E now) st.state bl es.length).2 } →
      SameFrame n n' → Refused E now F chain n n' bl := fun n' hn' hf =>
    refused_of_purge now (R := []) hrep hh (by rw [Flags.mark_nil]; exact hst)
      (by rw [hids]) hfet (Or.inl htxs) (by simp) hrec hcut hn' hf
  cases hval : validateMinerTransaction E n.blocks bl st.cumulativeBlockSize st.feeSummary
      (generatedCoins n.blocks) with
  | none =>
    right
    have hr : r = (false, { bvc with verifivationFailed := true }, { n with txs :=
        (purgeBlockDataFromBlockchain (n.view E now) st.state bl st.txProcessedCount).2 }) := by
      simp only [r, finishBlock, hval]
    rw [hr]
    refine ⟨rfl, rfl, hpurged _ (by rw [hcount]) ⟨rfl, rfl⟩, fun c hc hbl he => ?_⟩
    obtain ⟨_, _, hv, -⟩ := hc.record
    rw [hbl, he, ← hfee, ← hsize, ← hrep.blocks, hval] at hv
    simp at hv
  | some p =>
    obtain ⟨baseReward, donationTotal⟩ := p
    cases hidx : n.blocksIndex.get (getBlockHash E bl) with
    | some h' =>
      right
      have hr : r = (false, { bvc with verifivationFailed := true }, { n with txs :=
          (purgeBlockDataFromBlockchain (n.view E now) st.state bl st.txProcessedCount).2 }) := by
        simp only [r, finishBlock, hval, hidx]
      rw [hr]
      refine ⟨rfl, rfl, hpurged _ (by rw [hcount]) ⟨rfl, rfl⟩, fun c hc hbl he => ?_⟩
      have := blocksIndexOf_get_none.mpr hc.fresh
      rw [hbl, ← hrep.blocksIndex, hidx] at this
      simp at this
    | none =>
      left
      have hscr : n.scratchpad.getScratchpad = scratchpadOf E (blocksOf chain) := by
        rw [hrep.scratchpad]
        rfl
      let bei := nextBlockExtendedInfo n.blocks n.scratchpad.getScratchpad.length bl
        st.cumulativeBlockSize (getDifficultyForNextBlock (blocksOf chain)) baseReward donationTotal
      have hbei : bei = nextBlockExtendedInfo (blocksOf chain)
          (scratchpadOf E (blocksOf chain)).length bl (sizesOf es (getObjectBlobsize bl.minerTx))
          (getDifficultyForNextBlock (blocksOf chain)) baseReward donationTotal := by
        simp only [bei, hrep.blocks, hscr, hsize]
      have hheight : bei.height = chain.length := by simp [hbei, nextBlockExtendedInfo]
      have hr : r = (true, { bvc with addedToMainChain := true },
          { n with
            blocks := n.blocks ++ [bei], txs := st.state,
            blocksIndex := n.blocksIndex.set (getBlockHash E bl) bei.height,
            scratchpad := n.scratchpad.pushBlockScratchpadData E bl,
            currentBlockCumulSzLimit := nextCumulativeSizeLimit (n.blocks ++ [bei]) }) := by
        simp only [r, finishBlock, hval, hidx, bei]
      rw [hr]
      have hcoin : coinbaseEntry E bei = coinbaseOf E bl chain.length := by
        simp only [coinbaseEntry, hheight]
        rfl
      have hentries : (⟨bei, es⟩ : ChainBlock).entries E = coinbaseOf E bl chain.length :: es := by
        simp only [ChainBlock.entries, hcoin]
      have hchain : entriesOf E (chain ++ [⟨bei, es⟩]) =
          entriesOf E chain ++ [coinbaseOf E bl chain.length] ++ es := by
        rw [entriesOf_append_singleton, hcoin]
      have hblocks : blocksOf (chain ++ [⟨bei, es⟩]) = blocksOf chain ++ [bei] := by
        simp [blocksOf]
      have hfresh : getBlockHash E bl ∉ blockIds E (blocksOf chain) := by
        rw [← blocksIndexOf_get_none, ← hrep.blocksIndex]
        exact hidx
      refine ⟨rfl, rfl, ⟨bei, es⟩, rfl, rfl, ?_, ?_, hfet, ?_, rfl, rfl⟩
      · refine ⟨hh, ?_, hids, ?_, hfresh, baseReward, donationTotal, ?_, hbei⟩
        · rw [hcoin]
          exact hcb
        · rw [hcoin]
          exact htxs
        · rw [← hval, hfee, hsize, hrep.blocks]
          rfl
      · refine ⟨?_, ?_, ?_, ?_⟩
        · rw [hblocks, ← hrep.blocks]
        · rw [hblocks, blocksIndexOf_append_singleton, ← hrep.blocksIndex]
          rfl
        · rw [hchain, hentries]
          exact hst
        · rw [hblocks, scratchpadOf_append_singleton]
          simp only [hrep.scratchpad, ScratchpadWrapper.pushBlockScratchpadData]
          rfl
      · change Recalls _ _ _ (knownIn (entriesOf E (chain ++ [⟨bei, es⟩])) st.state.pool)
        rw [hchain]
        exact hrec

theorem addBlockTransactions_spec (bvc : BlockVerificationContext)
    (hrep : Rep E F chain n.toChainStores)
    (hzone : n.isInCheckpointZone = zoneAt n.checkpoints chain)
    (hh : HeaderOK E n.checkpoints now (blocksOf chain) bl) :
    let r := addBlockTransactions E now bvc n bl (getDifficultyForNextBlock (blocksOf chain))
    (r.1 = true ∧ r.2.1 = { bvc with addedToMainChain := true } ∧
      ∃ c, c.bei.bl = bl ∧ Pushed E now F chain n r.2.2 c) ∨
    (r.1 = false ∧ r.2.1 = { bvc with verifivationFailed := true } ∧
      Refused E now F chain n r.2.2 bl) := by
  intro r
  obtain ⟨g, hg, -⟩ := vin_of_prevalidate hh.miner
  have hlen : n.blocks.length = chain.length := by rw [hrep.blocks, blocksOf_length]
  have hcoin := isCoinbase_of_gen hg
  -- the coinbase goes in first, ahead of the loop over the hashes
  rcases addTransactionFromBlock_spec (coinbaseOf E bl chain.length) hrep.txs (inputsOK_of_gen hg)
      rfl (by simp [hcoin]) (by simp [hcoin]) with
    ⟨ha, s, hadd, hp, hs⟩ | ⟨hna, s, R, hR, hadd, hp, hs⟩
  swap
  · right
    have hr : r = (false, { bvc with verifivationFailed := true }, { n with txs := s }) := by
      simp only [r, addBlockTransactions, hlen, hadd]
    rw [hr]
    have hnil : R = [] := by
      rcases hR with rfl | rfl
      · rfl
      · exact refsOf_gen hg
    refine ⟨rfl, rfl, ⟨[], [], ?_, Fetched.nil .., Or.inl trivial, by simp, by simp⟩, ?_,
      fun id d hd => ?_, rfl, rfl⟩
    · rw [hnil] at hs
      exact ⟨hrep.blocks, hrep.blocksIndex, hs, hrep.scratchpad⟩
    · change Recalls _ _ _ (knownIn _ s.pool)
      rw [hp]
      exact Recalls.refl _ _ _
    · refine Or.inr ⟨fun ht => hna ht.coinbase, ?_⟩
      change knownIn _ s.pool id = _
      rw [hp]
      exact known_of_pool hd
  have hknown : knownIn (entriesOf E chain ++ [coinbaseOf E bl chain.length]) s.pool =
      Known E chain n.toChainStores := by
    rw [knownIn_append_coinbase _ hcoin, hp]
    rfl
  have hspec := processTransactions_spec (n.view E now) bl.txHashes
    ⟨s, 0, 0, getObjectBlobsize bl.minerTx⟩ hs
  simp only [Node.view, hlen, hzone, hknown] at hspec
  rw [hp] at hspec
  rcases hspec with ⟨es, st, hproc, hids, htxs, hst, hfee, hsize, hcount, hfet, hrec, hcut⟩ |
    ⟨es, es', R, f, hproc, hcount, hst, hfet, htried, hpre, hsub, hrec, hcut⟩
  · have hr : r = finishBlock E now bvc n bl (getDifficultyForNextBlock (blocksOf chain)) st := by
      simp only [r, addBlockTransactions, hlen, hadd, Node.view, hzone, hproc]
    rw [hr]
    rcases finishBlock_spec bvc hrep hh ha hids htxs hst hfee hsize (by simpa using hcount) hfet
      hrec hcut with ⟨h1, h2, c, h3, -, h4⟩ | ⟨h1, h2, h3, -⟩
    · exact Or.inl ⟨h1, h2, c, h3, h4⟩
    · exact Or.inr ⟨h1, h2, h3⟩
  · right
    -- the loop failed: the transactions it took are purged, the coinbase with them
    let n' : Node := { n with txs :=
      (purgeBlockDataFromBlockchain (n.view E now) f.state bl f.txProcessedCount).2 }
    have hr : r = (false, { bvc with verifivationFailed := true },
        if f.addAsInvalid then addBlockAsInvalid n' ⟨bl, 0, 0, 0, 0, 0, 0⟩ (getBlockHash E bl)
        else n') := by
      simp only [r, addBlockTransactions, hlen, hadd, n', Node.view, hzone, hproc]
    rw [hr]
    have hcount' : f.txProcessedCount = es.length := by simpa using hcount
    have hstores : ∀ m : Node, m.toChainStores = n'.toChainStores → SameFrame n m →
        Refused E now F chain n m bl := fun m hm hf =>
      refused_of_purge now hrep hh hst hpre hfet htried hsub hrec hcut
        (by rw [hm]; simp only [n', hcount']) hf
    refine ⟨rfl, rfl, ?_⟩
    cases f.addAsInvalid with
    | true =>
      obtain ⟨h1, h2⟩ := addBlockAsInvalid_stores n' ⟨bl, 0, 0, 0, 0, 0, 0⟩ (getBlockHash E bl)
      have hframe : SameFrame n n' := ⟨rfl, rfl⟩
      exact hstores _ h1 (hframe.trans h2)
    | false => exact hstores _ rfl ⟨rfl, rfl⟩

theorem addBlockTransactions_complete (bvc : BlockVerificationContext) {c : ChainBlock}
    (hrep : Rep E F chain n.toChainStores)
    (hzone : n.isInCheckpointZone = zoneAt n.checkpoints chain)
    (hc : ValidNext E n.checkpoints now chain c)
    (hpool : ∀ te ∈ c.txs, ∃ d, n.txs.pool.transactions.get te.id = some d ∧
      cutIn (zoneAt n.checkpoints chain) d.tx = te.tx) :
    let r := addBlockTransactions E now bvc n c.bei.bl (getDifficultyForNextBlock (blocksOf chain))
    r.1 = true ∧ r.2.1 = { bvc with addedToMainChain := true } ∧
      ∃ c', c'.bei.bl = c.bei.bl ∧ c'.txs = c.txs ∧ Pushed E now F chain n r.2.2 c' := by
  intro r
  have hh := hc.header
  obtain ⟨g, hg, -⟩ := vin_of_prevalidate hh.miner
  have hlen : n.blocks.length = chain.length := by rw [hrep.blocks, blocksOf_length]
  have hcoin := isCoinbase_of_gen hg
  have hcb : coinbaseEntry E c.bei = coinbaseOf E c.bei.bl chain.length := by
    rw [coinbaseEntry, hc.height]
  have hca := hc.coinbase
  rw [hcb] at hca
  have htxs := hc.txs
  rw [hcb] at htxs
  rcases addTransactionFromBlock_spec (coinbaseOf E c.bei.bl chain.length) hrep.txs
      (inputsOK_of_gen hg) rfl (by simp [hcoin]) (by simp [hcoin]) with
    ⟨-, s, hadd, hp, hs⟩ | ⟨hna, -⟩
  swap
  · exact absurd hca hna
  have hknown : knownIn (entriesOf E chain ++ [coinbaseOf E c.bei.bl chain.length]) s.pool =
      Known E chain n.toChainStores := by
    rw [knownIn_append_coinbase _ hcoin, hp]
    rfl
  have hspec := processTransactions_complete (n.view E now) c.txs
    ⟨s, 0, 0, getObjectBlobsize c.bei.bl.minerTx⟩ hs
  simp only [Node.view, hlen, hzone, hknown] at hspec
  rw [hp] at hspec
  obtain ⟨st, hproc, hst, hfee, hsize, hcount, hrec, hcut⟩ := hspec htxs hpool
  rw [hc.txIds] at hproc hrec hcut
  have hr : r = finishBlock E now bvc n c.bei.bl (getDifficultyForNextBlock (blocksOf chain)) st := by
    simp only [r, addBlockTransactions, hlen, hadd, Node.view, hzone, hproc]
  rw [hr]
  have hfet : Fetched (Known E chain n.toChainStores) (zoneAt n.checkpoints chain) chain.length
      c.bei.bl.txHashes c.txs := by
    refine ⟨by rw [hc.txIds], fun te hte => ?_⟩
    obtain ⟨d, hd, hcut⟩ := hpool te hte
    refine ⟨htxs.height te hte, d.tx, ?_, hcut.symm⟩
    simp [Known, knownIn, hd]
  rcases finishBlock_spec bvc hrep hh hca hc.txIds htxs hst hfee hsize (by simpa using hcount) hfet
    hrec hcut with ⟨h1, h2, c', h3, h4, h5⟩ | ⟨-, -, -, hno⟩
  · exact ⟨h1, h2, c', h3, h4, h5⟩
  · exact absurd rfl (hno c hc rfl)

end Push

theorem checkBlockTimestamp_spec (E : Env) (n : Node) (timestamps : List UInt64) (b : Block) :
    (checkBlockTimestamp E n timestamps b).1 = timestampsAccept timestamps b ∧
      (checkBlockTimestamp E n timestamps b).2.toChainStores = n.toChainStores ∧
      SameFrame n (checkBlockTimestamp E n timestamps b).2 := by
  unfold checkBlockTimestamp timestampsAccept
  split_ifs with h1 h2
  · exact ⟨rfl, rfl, rfl, rfl⟩
  · exact ⟨by simp [h2], rfl, rfl, rfl⟩
  · exact ⟨by simp [h2], rfl, rfl, rfl⟩

theorem checkBlockTimestampMain_spec (E : Env) (now : ℕ) (n : Node) (b : Block) :
    (checkBlockTimestampMain E now n b).1 =
        (decide (b.timestamp.toNat ≤ now + CURRENCY_BLOCK_FUTURE_TIME_LIMIT) &&
          timestampsAccept (lastTimestamps n.blocks) b) ∧
      (checkBlockTimestampMain E now n b).2.toChainStores = n.toChainStores ∧
      SameFrame n (checkBlockTimestampMain E now n b).2 := by
  unfold checkBlockTimestampMain
  split_ifs with h
  · exact ⟨by simp [Nat.not_le.mpr h], rfl, rfl, rfl⟩
  · obtain ⟨h1, h2, h3⟩ := checkBlockTimestamp_spec E n (lastTimestamps n.blocks) b
    exact ⟨by rw [h1]; simp [Nat.not_lt.mp h], h2, h3⟩

section Main

variable {E : Env} {now : ℕ} {F : Flags} {chain : List ChainBlock} {n : Node} {bl : Block}

/-- The checks in front of the transactions either all pass, or end the call with no store
changed. -/
theorem handleBlockToMainChain_header (now : ℕ) (bl : Block) (bvc : BlockVerificationContext)
    (hrep : Rep E F chain n.toChainStores) :
    let r := handleBlockToMainChain E now bvc n bl
    (HeaderOK E n.checkpoints now (blocksOf chain) bl ∧ ∃ n₁ : Node,
      n₁.toChainStores = n.toChainStores ∧ SameFrame n n₁ ∧
      n₁.isInCheckpointZone = zoneAt n.checkpoints chain ∧
      r = addBlockTransactions E now bvc n₁ bl (getDifficultyForNextBlock (blocksOf chain))) ∨
    (¬HeaderOK E n.checkpoints now (blocksOf chain) bl ∧ r.1 = false ∧
      (r.2.1 = bvc ∨ r.2.1 = { bvc with verifivationFailed := true }) ∧
      r.2.2.toChainStores = n.toChainStores ∧ SameFrame n r.2.2) := by
  intro r
  have hlen : n.blocks.length = chain.length := by rw [hrep.blocks, blocksOf_length]
  have hscr : n.scratchpad.getScratchpad = scratchpadOf E (blocksOf chain) := by
    rw [hrep.scratchpad]
    rfl
  obtain ⟨hts, hst, hfr⟩ := checkBlockTimestampMain_spec E now n bl
  simp only [r, handleBlockToMainChain]
  generalize hn₁ : (checkBlockTimestampMain E now n bl).2 = n₁ at hst hfr
  have hb₁ : n₁.blocks = blocksOf chain := by rw [hst, hrep.blocks]
  have hs₁ : n₁.scratchpad.getScratchpad = scratchpadOf E (blocksOf chain) := by rw [hst, hscr]
  have hc₁ := hfr.checkpoints
  rw [hrep.blocks] at hts ⊢
  rw [hb₁, hs₁, ← hc₁, hts]
  -- the checks in the order of the source, each with its own exit
  by_cases h1 : bl.prevId = getTopBlockId E (blocksOf chain)
  swap
  · exact Or.inr ⟨fun h => h1 h.prevId, by simp [h1], by simp [h1], by simp [h1], by
      simpa [h1] using SameFrame.refl n⟩
  simp only [h1, ne_eq, not_true_eq_false, if_false]
  cases h2 : decide (bl.timestamp.toNat ≤ now + CURRENCY_BLOCK_FUTURE_TIME_LIMIT) &&
      timestampsAccept (lastTimestamps (blocksOf chain)) bl with
  | false =>
    refine Or.inr ⟨fun h => ?_, rfl, Or.inr rfl, hst, hfr⟩
    simp [h.future, h.timestamp] at h2
  | true =>
    obtain ⟨hfuture, haccept⟩ := (Bool.and_eq_true _ _).mp h2
    simp only [Bool.not_true, Bool.false_eq_true, if_false]
    by_cases h3 : getDifficultyForNextBlock (blocksOf chain) = 0
    · rw [if_pos h3]
      exact Or.inr ⟨fun h => h.difficulty h3, rfl, Or.inl rfl, hst, hfr⟩
    rw [if_neg h3]
    cases h4 : checkHash (getBlockLonghash E bl (blocksOf chain).length
        (scratchpadAccessor (scratchpadOf E (blocksOf chain))))
        (getDifficultyForNextBlock (blocksOf chain)) with
    | false =>
      refine Or.inr ⟨fun h => ?_, rfl, Or.inr rfl, hst, hfr⟩
      rw [h.pow] at h4
      simp at h4
    | true =>
      have hzfr : SameFrame n ({ n₁ with isInCheckpointZone :=
          n₁.checkpoints.isInCheckpointZone (blocksOf chain).length } : Node) :=
        ⟨hfr.alternativeChains, hfr.checkpoints⟩
      simp only [Bool.not_true, Bool.false_eq_true, if_false]
      cases h5 : n₁.checkpoints.isInCheckpointZone (blocksOf chain).length &&
          !n₁.checkpoints.checkBlock (blocksOf chain).length (getBlockHash E bl) with
      | true =>
        refine Or.inr ⟨fun h => ?_, rfl, Or.inr rfl, hst, hzfr⟩
        obtain ⟨hz, hcp⟩ := (Bool.and_eq_true _ _).mp h5
        rw [h.checkpoint hz] at hcp
        simp at hcp
      | false =>
        simp only [Bool.false_eq_true, if_false]
        cases h6 : prevalidateMinerTransaction bl (blocksOf chain).length with
        | false =>
          refine Or.inr ⟨fun h => ?_, rfl, Or.inr rfl, hst, hzfr⟩
          rw [h.miner] at h6
          simp at h6
        | true =>
          left
          refine ⟨⟨h1, by simpa using hfuture, haccept, h3, h4, fun hz => ?_, h6⟩,
            { n₁ with isInCheckpointZone :=
              n₁.checkpoints.isInCheckpointZone (blocksOf chain).length }, hst, hzfr, ?_, rfl⟩
          · rw [hz] at h5
            simpa using h5
          · simp [zoneAt]

theorem Pushed.of_same {n₁ n' : Node} {c : ChainBlock} (hs : n₁.toChainStores = n.toChainStores)
    (hf : SameFrame n n₁) (h : Pushed E now F chain n₁ n' c) : Pushed E now F chain n n' c := by
  obtain ⟨h1, h2, h3, h4, h5⟩ := h
  rw [hs, hf.checkpoints] at h3 h4
  rw [hf.checkpoints] at h1
  exact ⟨h1, h2, h3, h4, hf.trans h5⟩

theorem Refused.of_same_left {n₁ n' : Node} (hs : n₁.toChainStores = n.toChainStores)
    (hf : SameFrame n n₁) (h : Refused E now F chain n₁ n' bl) : Refused E now F chain n n' bl := by
  obtain ⟨h1, h2, h3, h4⟩ := h
  have hiff : ∀ id, BlockTakes E now chain n₁ bl id ↔ BlockTakes E now chain n bl id := by
    intro id
    constructor
    · rintro ⟨ht1, ht2, ht3⟩
      rw [hf.checkpoints] at ht1 ht3
      rw [hs] at ht3
      exact ⟨ht1, ht2, ht3⟩
    · rintro ⟨ht1, ht2, ht3⟩
      rw [← hf.checkpoints] at ht1 ht3
      rw [← hs] at ht3
      exact ⟨ht1, ht2, ht3⟩
  simp only [hiff] at h3
  rw [hs, hf.checkpoints] at h1 h2 h3
  exact ⟨h1, h2, h3, hf.trans h4⟩

theorem handleBlockToMainChain_spec (now : ℕ) (bl : Block) (bvc : BlockVerificationContext)
    (hrep : Rep E F chain n.toChainStores) :
    let r := handleBlockToMainChain E now bvc n bl
    (r.1 = true ∧ r.2.1 = { bvc with addedToMainChain := true } ∧
      ∃ c, c.bei.bl = bl ∧ Pushed E now F chain n r.2.2 c) ∨
    (r.1 = false ∧ (r.2.1 = bvc ∨ r.2.1 = { bvc with verifivationFailed := true }) ∧
      Refused E now F chain n r.2.2 bl) := by
  intro r
  rcases handleBlockToMainChain_header now bl bvc hrep with
    ⟨hh, n₁, hs, hf, hzone, hr⟩ | ⟨hno, h1, h2, hs, hf⟩
  · have hrep₁ : Rep E F chain n₁.toChainStores := by rw [hs]; exact hrep
    rw [← hf.checkpoints] at hzone hh
    have hadd := addBlockTransactions_spec bvc hrep₁ hzone hh
    rw [← hr] at hadd
    rcases hadd with ⟨h1, h2, c, hc, hp⟩ | ⟨h1, h2, h3⟩
    · exact Or.inl ⟨h1, h2, c, hc, hp.of_same hs hf⟩
    · exact Or.inr ⟨h1, Or.inr h2, h3.of_same_left hs hf⟩
  · exact Or.inr ⟨h1, h2, Refused.of_same hrep hs hno hf⟩

theorem handleBlockToMainChain_complete (bvc : BlockVerificationContext) {c : ChainBlock}
    (hrep : Rep E F chain n.toChainStores) (hc : ValidNext E n.checkpoints now chain c)
    (hpool : ∀ te ∈ c.txs, ∃ d, n.txs.pool.transactions.get te.id = some d ∧
      cutIn (zoneAt n.checkpoints chain) d.tx = te.tx) :
    let r := handleBlockToMainChain E now bvc n c.bei.bl
    r.1 = true ∧ r.2.1 = { bvc with addedToMainChain := true } ∧ Pushed E now F chain n r.2.2 c := by
  intro r
  rcases handleBlockToMainChain_header now c.bei.bl bvc hrep with
    ⟨-, n₁, hs, hf, hzone, hr⟩ | ⟨hno, -⟩
  · have hrep₁ : Rep E F chain n₁.toChainStores := by rw [hs]; exact hrep
    rw [← hf.checkpoints] at hzone hc hpool
    have hpool₁ : ∀ te ∈ c.txs, ∃ d, n₁.txs.pool.transactions.get te.id = some d ∧
        cutIn (zoneAt n₁.checkpoints chain) d.tx = te.tx := by rw [hs]; exact hpool
    obtain ⟨h1, h2, c', hbl, htxs, hp⟩ := addBlockTransactions_complete bvc hrep₁ hzone hc hpool₁
    rw [← hr] at h1 h2 hp
    have hcc : c' = c := hp.valid.ext hc hbl htxs
    exact ⟨h1, h2, (hcc ▸ hp).of_same hs hf⟩
  · exact absurd hc.header hno

end Main

/-- The last block can be popped when its scratchpad addendum can be read back. -/
def Readable (E : Env) (b : Block) : Prop := (getBlockScratchpadAddendum E b).1 = true

instance (E : Env) (b : Block) : Decidable (Readable E b) := inferInstanceAs (Decidable (_ = _))

section Pop

variable {E : Env} {cps : Checkpoints} {t : ℕ} {F : Flags} {chain : List ChainBlock} {n : Node}
  {c : ChainBlock}

/-- A block whose addendum is unreadable cannot be popped, and the attempt changes nothing. -/
theorem popBlockFromBlockchain_unreadable (now : ℕ) (hrep : Rep E F (chain ++ [c]) n.toChainStores)
    (h : ¬Readable E c.bei.bl) : popBlockFromBlockchain E now n = (false, n) := by
  have hfalse : (getBlockScratchpadAddendum E c.bei.bl).1 = false := by
    simpa [Readable] using h
  have hlast : n.blocks.getLast? = some c.bei := by rw [hrep.blocks]; simp [blocksOf]
  unfold popBlockFromBlockchain
  split_ifs with hlen
  · rfl
  · simp only [hlast, ScratchpadWrapper.popBlockScratchpadData,
      popBlockScratchpadData_eq_none E c.bei.bl _ hfalse]
    rfl

/-- Popping a readable block takes it off, with the flags of its references cleared. -/
theorem popBlockFromBlockchain_readable (now : ℕ) (hrep : Rep E F (chain ++ [c]) n.toChainStores)
    (hc : ValidNext E cps t chain c) (hne : chain ≠ []) (h : Readable E c.bei.bl) :
    ∃ n', popBlockFromBlockchain E now n = (true, n') ∧
      Rep E (F.mark (blockRefs (entriesOf E chain) (c.entries E)) false) chain n'.toChainStores ∧
      Known E chain n'.toChainStores = Known E (chain ++ [c]) n.toChainStores ∧ SameFrame n n' := by
  have hlast : n.blocks.getLast? = some c.bei := by rw [hrep.blocks]; simp [blocksOf]
  have hlen : ¬n.blocks.length ≤ 1 := by
    have := List.length_pos_iff.mpr hne
    rw [hrep.blocks, blocksOf_length, List.length_append, List.length_singleton]
    omega
  have hscr : scratchpadOf E (blocksOf (chain ++ [c])) =
      pushBlockScratchpadData E c.bei.bl (scratchpadOf E (blocksOf chain)) := by
    rw [blocksOf_append]
    exact scratchpadOf_append_singleton E _ c.bei
  have hpop : n.scratchpad.popBlockScratchpadData E c.bei.bl =
      (true, ⟨scratchpadOf E (blocksOf chain), scratchpadOf E (blocksOf chain)⟩) := by
    simp only [ScratchpadWrapper.popBlockScratchpadData, hrep.scratchpad, hscr,
      popBlockScratchpadData_push E c.bei.bl _ h]
    rfl
  have htxs := hrep.txs
  rw [entriesOf_append_singleton] at htxs
  obtain ⟨s', hpurge, hrep', hknown⟩ := purgeBlockDataFromBlockchain_spec (n.view E now) c.bei.bl
    c.bei.height htxs (by rw [hc.txIds])
  have hcount : c.txs.length = c.bei.bl.txHashes.length := by
    rw [← hc.txIds, List.length_map]
  rw [hcount] at hpurge
  have hidx : n.blocksIndex =
      (blocksIndexOf E (blocksOf chain)).set (getBlockHash E c.bei.bl) c.bei.height := by
    rw [hrep.blocksIndex, blocksOf_append]
    exact blocksIndexOf_append_singleton E _ c.bei
  have herase : n.blocksIndex.erase (getBlockHash E c.bei.bl) =
      blocksIndexOf E (blocksOf chain) := by
    rw [hidx]
    exact Map.erase_set_of_get_none _ (blocksIndexOf_get_none.mpr hc.fresh)
  have hhad : (n.blocksIndex.get (getBlockHash E c.bei.bl)).isSome = true := by
    rw [hidx, Map.get_set_self]
    rfl
  have hdrop : n.blocks.dropLast = blocksOf chain := by
    rw [hrep.blocks]
    simp [blocksOf]
  refine ⟨⟨⟨blocksOf chain, blocksIndexOf E (blocksOf chain), s',
    ⟨scratchpadOf E (blocksOf chain), scratchpadOf E (blocksOf chain)⟩⟩, n.currentBlockCumulSzLimit,
    n.currentPrunedRsHeight, n.invalidBlocks, n.alternativeChains, n.isInCheckpointZone,
    n.checkpoints, n.lastMedianTsCheckedTopBlockId, n.lastMedianTsChecked⟩, ?_,
    ⟨rfl, rfl, hrep', rfl⟩, ?_, rfl, rfl⟩
  · simp only [popBlockFromBlockchain, hlen, if_false, hlast, hpop, Bool.not_true,
      Bool.false_eq_true, Node.view] at hpurge ⊢
    simp only [hpurge, Bool.not_true, Bool.false_eq_true, if_false, hhad, if_true, herase, hdrop]
  · rw [Known, Known, entriesOf_append_singleton]
    exact hknown

end Pop

end Boolberry
