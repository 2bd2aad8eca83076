import Boolberry.NodeInvariant

/-!
# The main chain in every reachable state

What a valid chain says about the block list, the block-id index and the stored
transactions of the node that represents it.
-/

namespace Boolberry
open KeyValue

/-- Every block of a valid chain was valid next to the blocks before it, the genesis block without
checkpoints. -/
theorem ValidChain.validNext {E : Env} {cps : Checkpoints} {t : ℕ} {chain pre post : List ChainBlock}
    {c : ChainBlock} (h : ValidChain E cps t chain) (hc : chain = pre ++ c :: post) :
    ∃ cps', ValidNext E cps' t pre c ∧ (pre ≠ [] → cps' = cps) := by
  induction h generalizing post with
  | @genesis c' h' =>
    obtain ⟨rfl, hcons⟩ : pre = [] ∧ [c'] = c :: post := by
      cases pre with
      | nil => exact ⟨rfl, hc⟩
      | cons a l => simp at hc
    obtain ⟨rfl, -⟩ := List.cons.inj hcons
    exact ⟨∅, h', by simp⟩
  | @snoc chain' c' hv h' ih =>
    rcases List.eq_nil_or_concat' post with rfl | ⟨post', d, rfl⟩
    · obtain ⟨rfl, hcons⟩ := List.append_inj' hc rfl
      obtain rfl := List.singleton_injective hcons
      exact ⟨cps, h', fun _ => rfl⟩
    · rw [← List.cons_append, ← List.append_assoc] at hc
      obtain ⟨hl, -⟩ := List.append_inj' hc rfl
      exact ih hl

theorem ValidChain.take {E : Env} {cps : Checkpoints} {t : ℕ} {chain : List ChainBlock}
    (hv : ValidChain E cps t chain) {h : ℕ} (h0 : h ≠ 0) : ValidChain E cps t (chain.take h) := by
  induction hv with
  | genesis hc =>
    rw [List.take_of_length_le (by simp; omega)]
    exact .genesis hc
  | @snoc chain c hv hc ih =>
    by_cases hle : h ≤ chain.length
    · rw [List.take_append_of_le_length hle]
      exact ih
    · rw [List.take_of_length_le (by simp; omega)]
      exact .snoc hv hc

theorem ValidChain.of_append {E : Env} {cps : Checkpoints} {t : ℕ} {pre post : List ChainBlock}
    (hv : ValidChain E cps t (pre ++ post)) (hne : pre ≠ []) : ValidChain E cps t pre := by
  have := hv.take (List.length_pos_iff.mpr hne).ne'
  rwa [List.take_left] at this

theorem take_cons_drop {α : Type} {l : List α} {i : ℕ} (h : i < l.length) :
    l = l.take i ++ l[i] :: l.drop (i + 1) := by
  rw [← List.drop_eq_getElem_cons h, List.take_append_drop]

theorem ValidChain.at {E : Env} {cps : Checkpoints} {t h : ℕ} {chain : List ChainBlock}
    {c : ChainBlock} (hv : ValidChain E cps t chain) (hc : chain[h]? = some c) :
    ∃ cps', ValidNext E cps' t (chain.take h) c ∧ (h ≠ 0 → cps' = cps) := by
  obtain ⟨hlt, rfl⟩ := List.getElem?_eq_some_iff.mp hc
  obtain ⟨cps', hn, hcps⟩ := hv.validNext (take_cons_drop hlt)
  refine ⟨cps', hn, fun h0 => hcps ?_⟩
  intro htake
  have := congrArg List.length htake
  rw [List.length_take, List.length_nil] at this
  omega

theorem ValidChain.height {E : Env} {cps : Checkpoints} {t h : ℕ} {chain : List ChainBlock}
    {c : ChainBlock} (hv : ValidChain E cps t chain) (hc : chain[h]? = some c) :
    c.bei.height = h := by
  obtain ⟨cps', hn, -⟩ := hv.at hc
  obtain ⟨hlt, -⟩ := List.getElem?_eq_some_iff.mp hc
  rw [hn.height, List.length_take]
  omega

theorem ValidNext.linked {E : Env} {cps : Checkpoints} {t : ℕ} {chain : List ChainBlock}
    {c : ChainBlock} (hl : Linked E (entriesOf E chain)) (hc : ValidNext E cps t chain c) :
    Linked E (entriesOf E (chain ++ [c])) := by
  rw [entriesOf_append_singleton]
  exact hc.txs.linked (hl.snoc hc.coinbase)

theorem ValidChain.linked {E : Env} {cps : Checkpoints} {t : ℕ} {chain : List ChainBlock}
    (hv : ValidChain E cps t chain) : Linked E (entriesOf E chain) := by
  induction hv with
  | genesis hc => exact hc.linked .nil
  | snoc _ hc ih => exact hc.linked ih

/-- Above genesis a block at the height of a checkpoint is that of the checkpoint. -/
theorem ValidChain.checkpoint {E : Env} {cps : Checkpoints} {t p : ℕ} {chain : List ChainBlock}
    {c : ChainBlock} {id : Hash} (hv : ValidChain E cps t chain) (hp : p ≠ 0)
    (hc : chain[p]? = some c) (hget : cps.get p = some id) : getBlockHash E c.bei.bl = id := by
  obtain ⟨cps', hn, hcps⟩ := hv.at hc
  obtain rfl := hcps hp
  have hlt := (List.getElem?_eq_some_iff.mp hc).1
  have hcheck := hn.header.checkpoint
  rw [blocksOf_length, List.length_take, Nat.min_eq_left hlt.le] at hcheck
  exact checkBlock_of_get hget (hcheck (isInCheckpointZone_of_mem (Map.mem_keys.mpr ⟨id, hget⟩)))

theorem blockIds_nodup {E : Env} {cps : Checkpoints} {t : ℕ} {chain : List ChainBlock}
    (hv : ValidChain E cps t chain) : (blockIds E (blocksOf chain)).Nodup := by
  induction hv with
  | genesis h => simp [blockIds, blocksOf]
  | snoc _ h ih =>
    rw [blocksOf_append, blockIds_append, List.nodup_append]
    refine ⟨ih, by simp [blockIds, blocksOf], fun a ha b hb => ?_⟩
    simp only [blockIds, blocksOf, List.map_cons, List.map_nil, List.mem_singleton] at hb
    exact fun he => h.fresh (hb ▸ he ▸ ha)

theorem blocksIndexOf_get {E : Env} {cps : Checkpoints} {t : ℕ} {chain : List ChainBlock}
    (hv : ValidChain E cps t chain) (id : Hash) (h : ℕ) :
    (blocksIndexOf E (blocksOf chain)).get id = some h ↔
      ∃ bei, (blocksOf chain)[h]? = some bei ∧ getBlockHash E bei.bl = id := by
  induction hv with
  | @genesis c hc =>
    have h0 : c.bei.height = 0 := hc.height
    cases h with
    | zero => simp [blocksIndexOf, blocksOf, Map.get_set, h0, eq_comm]
    | succ h => simp [blocksIndexOf, blocksOf, Map.get_set, h0]
  | @snoc chain c hv hc ih =>
    have hidx : blocksIndexOf E (blocksOf (chain ++ [c])) =
        (blocksIndexOf E (blocksOf chain)).set (getBlockHash E c.bei.bl) chain.length := by
      rw [blocksOf_append, ← hc.height]
      exact blocksIndexOf_append_singleton E _ c.bei
    rw [hidx, Map.get_set]
    have hget : (blocksOf (chain ++ [c]))[h]? =
        if h < chain.length then (blocksOf chain)[h]? else [c.bei][h - chain.length]? := by
      rw [blocksOf_append, List.getElem?_append, blocksOf_length]
      rfl
    rw [hget]
    split_ifs with hid hlt hlt
    · -- the id is that of the new block, so no older block has it
      constructor
      · intro he
        have := Option.some.inj he
        omega
      · rintro ⟨bei, hbei, he⟩
        exact absurd (he.trans hid ▸ List.mem_map_of_mem (List.mem_of_getElem? hbei)) hc.fresh
    · constructor
      · intro he
        have := Option.some.inj he
        exact ⟨c.bei, by simp [← this], hid.symm⟩
      · rintro ⟨bei, hbei, -⟩
        have hlen := (List.getElem?_eq_some_iff.mp hbei).1
        simp only [List.length_singleton] at hlen
        congr 1
        omega
    · exact ih
    · rw [ih]
      have hnone : (blocksOf chain)[h]? = none := by
        rw [List.getElem?_eq_none_iff, blocksOf_length]
        omega
      simp only [hnone, reduceCtorEq, false_and, exists_false, false_iff, not_exists, not_and]
      intro bei hbei he
      have hmem := List.mem_of_getElem? hbei
      rw [List.mem_singleton] at hmem
      exact hid (by rw [← he, hmem])

theorem mem_entriesOf {E : Env} {cps : Checkpoints} {t : ℕ} {chain : List ChainBlock}
    (hv : ValidChain E cps t chain) (id : Hash) (h : ℕ) :
    (∃ te ∈ entriesOf E chain, te.id = id ∧ te.height = h) ↔
      ∃ bei, (blocksOf chain)[h]? = some bei ∧
        (id = getTransactionHash E bei.bl.minerTx ∨ id ∈ bei.bl.txHashes) := by
  constructor
  · rintro ⟨te, hte, rfl, rfl⟩
    obtain ⟨c, hc, hmem⟩ := List.mem_flatMap.mp hte
    obtain ⟨i, hi⟩ := List.getElem?_of_mem hc
    obtain ⟨cps', hn, -⟩ := hv.at hi
    have hheight := hv.height hi
    have hlen : (chain.take i).length = i := by
      have := (List.getElem?_eq_some_iff.mp hi).1
      rw [List.length_take]
      omega
    have hblock : (blocksOf chain)[i]? = some c.bei := by simp [blocksOf, hi]
    rcases List.mem_cons.mp hmem with rfl | htx
    · exact ⟨c.bei, by rw [← hblock, ← hheight]; rfl, Or.inl rfl⟩
    · have hth := hn.txs.height te htx
      rw [hlen] at hth
      exact ⟨c.bei, by rw [hth, hblock], Or.inr (hn.txIds ▸ List.mem_map_of_mem htx)⟩
  · rintro ⟨bei, hbei, hid⟩
    obtain ⟨c, hc, rfl⟩ : ∃ c, chain[h]? = some c ∧ c.bei = bei := by
      simpa [blocksOf] using hbei
    obtain ⟨cps', hn, -⟩ := hv.at hc
    have hlen : (chain.take h).length = h := by
      have := (List.getElem?_eq_some_iff.mp hc).1
      rw [List.length_take]
      omega
    have hsub : ∀ te ∈ c.entries E, te ∈ entriesOf E chain := fun te hte =>
      List.mem_flatMap.mpr ⟨c, List.mem_of_getElem? hc, hte⟩
    rcases hid with rfl | hid
    · exact ⟨coinbaseEntry E c.bei, hsub _ (by simp [ChainBlock.entries]), rfl, hv.height hc⟩
    · rw [← hn.txIds] at hid
      obtain ⟨te, hte, rfl⟩ := List.mem_map.mp hid
      have hth := hn.txs.height te hte
      rw [hlen] at hth
      exact ⟨te, hsub te (by simp [ChainBlock.entries, hte]), rfl, hth⟩

/-- Block `b` continues the block list `below`, whose last block is `p`. -/
structure Follows (E : Env) (below : List BlockExtendedInfo) (p b : BlockExtendedInfo) : Prop where
  prevId : b.bl.prevId = getBlockHash E p.bl
  difficulty : b.cumulativeDifficulty = p.cumulativeDifficulty + getDifficultyForNextBlock below
  coins : ∃ baseReward donation royalty,
    getBlockReward (median (getLastNBlocksSizes below CURRENCY_REWARD_BLOCKS_WINDOW))
      b.blockCumulativeSize p.alreadyGeneratedCoins = some baseReward ∧
    minerDonation E below b.bl = some (donation, royalty) ∧
    b.alreadyGeneratedCoins = p.alreadyGeneratedCoins + baseReward ∧
    b.alreadyDonatedCoins = p.alreadyDonatedCoins + (donation + royalty)
  scratchOffset : b.scratchOffset = (scratchpadOf E below).length

/-- The main chain of a node is well formed. -/
structure WellFormed (E : Env) (n : Node) : Prop where
  blocksIndex : ∀ id h, n.blocksIndex.get id = some h ↔
    ∃ bei, n.blocks[h]? = some bei ∧ getBlockHash E bei.bl = id
  height : ∀ h bei, n.blocks[h]? = some bei → bei.height = h ∧
    ∃ g : UInt64, bei.bl.minerTx.vin = [.gen g] ∧ g.toNat = h
  follows : ∀ i p b, n.blocks[i]? = some p → n.blocks[i + 1]? = some b →
    Follows E (n.blocks.take (i + 1)) p b
  scratchpad : n.scratchpad.getScratchpad = scratchpadOf E n.blocks
  transactions : ∀ id h, (∃ e, n.txs.index.transactions.get id = some e ∧ e.keeperBlockHeight = h) ↔
    ∃ bei, n.blocks[h]? = some bei ∧
      (id = getTransactionHash E bei.bl.minerTx ∨ id ∈ bei.bl.txHashes)

theorem ValidNext.follows {E : Env} {cps : Checkpoints} {t : ℕ} {chain : List ChainBlock}
    {c p : ChainBlock} (h : ValidNext E cps t (chain ++ [p]) c) :
    Follows E (blocksOf (chain ++ [p])) p.bei c.bei := by
  have hlast : (blocksOf (chain ++ [p])).getLast? = some p.bei := by simp [blocksOf]
  obtain ⟨baseReward, donationTotal, hval, hbei⟩ := h.record
  obtain ⟨donation, royalty, hdon, hrew, -, rfl⟩ := validateMinerTransaction_some hval
  refine ⟨?_, ?_, ⟨baseReward, donation, royalty, ?_, hdon, ?_, ?_⟩, ?_⟩
  · rw [h.header.prevId, getTopBlockId, hlast]
  · rw [hbei]
    simp only [nextBlockExtendedInfo, hlast]
    exact BitVec.add_comm _ _
  · rw [hbei]
    rw [generatedCoins, hlast] at hrew
    exact hrew
  · rw [hbei]
    simp only [nextBlockExtendedInfo, hlast]
  · rw [hbei]
    simp only [nextBlockExtendedInfo, hlast]
  · rw [hbei]
    rfl

/-- In every reachable state the main chain is well formed. -/
theorem wellFormed_of_reachable (E : Env) (cps : Checkpoints) (n : Node) (h : Reachable E cps n) :
    WellFormed E n := by
  obtain ⟨F, chain, -, ⟨t, hv⟩, hrep⟩ := chainInv_of_reachable h
  have hblock : ∀ {i : ℕ} {bei : BlockExtendedInfo}, n.blocks[i]? = some bei →
      ∃ c : ChainBlock, chain[i]? = some c ∧ c.bei = bei := by
    intro i bei hi
    rw [hrep.blocks] at hi
    simpa [blocksOf] using hi
  refine ⟨fun id h => ?_, fun h bei hbei => ?_, fun i p b hp hb => ?_, ?_, fun id h => ?_⟩
  · rw [hrep.blocksIndex, hrep.blocks]
    exact blocksIndexOf_get hv id h
  · obtain ⟨c, hc, rfl⟩ := hblock hbei
    obtain ⟨cps', hn, -⟩ := hv.at hc
    have hlt := (List.getElem?_eq_some_iff.mp hc).1
    obtain ⟨g, hg, hgh⟩ := vin_of_prevalidate hn.header.miner
    refine ⟨hv.height hc, g, hg, hgh.trans ?_⟩
    rw [blocksOf_length, List.length_take]
    omega
  · obtain ⟨cp, hcp, rfl⟩ := hblock hp
    obtain ⟨cb, hcb, rfl⟩ := hblock hb
    obtain ⟨cps', hn, -⟩ := hv.at hcb
    obtain ⟨hlt, rfl⟩ := List.getElem?_eq_some_iff.mp hcp
    have htake : chain.take (i + 1) = chain.take i ++ [chain[i]] := List.take_succ_eq_append_getElem hlt
    have hblocks : n.blocks.take (i + 1) = blocksOf (chain.take i ++ [chain[i]]) := by
      rw [hrep.blocks, ← htake]
      simp [blocksOf, List.map_take]
    rw [hblocks]
    rw [htake] at hn
    exact hn.follows
  · rw [hrep.scratchpad, hrep.blocks]
    rfl
  · rw [hrep.txs.index, hrep.blocks, ← mem_entriesOf hv id h]
    constructor
    · rintro ⟨e, he, rfl⟩
      obtain ⟨l₁, te, l₂, hl, hid, rfl⟩ :=
        transactions_indexOf_some hrep.txs.linked.nodup_ids he
      exact ⟨te, by rw [hl]; simp, hid, rfl⟩
    · rintro ⟨te, hte, rfl, rfl⟩
      obtain ⟨e, he, -, hh, -⟩ := transactions_indexOf_mem F hrep.txs.linked.nodup_ids hte
      exact ⟨e, he, hh⟩

theorem wellFormed_sampleNode : ∃ n, Reachable sampleEnv ∅ n ∧ n.blocks.length = 12 ∧
    (n.txs.index.transactions.get (getTransactionHash sampleEnv signedSpend)).isSome = true ∧
    WellFormed sampleEnv n := by
  obtain ⟨n, hn, hlen, htx⟩ := exists_spending_node
  exact ⟨n, hn, hlen, htx, wellFormed_of_reachable sampleEnv ∅ n hn⟩

end Boolberry
