import Boolberry.MainChain

/-!
# Short chain histories

A node or a wallet that wants to catch up sends the ids of some of its blocks: the
ten on top, then ever wider gaps, then genesis. The other side looks for the first
of them that it has and answers with its own blocks from there on.
-/

namespace Boolberry
open KeyValue

def BLOCKS_IDS_SYNCHRONIZING_DEFAULT_COUNT : ℕ := 2000

/-- The loop of `get_short_chain_history`: the ids and `genesis_included`. The offset grows in every
round, so there are no more rounds than blocks. -/
def shortChainHistoryGo (ids : List Hash) : ℕ → ℕ → ℕ → ℕ → List Hash × Bool
  | 0, _, _, _ => ([], false)
  | rounds + 1, i, currentMultiplier, currentBackOffset =>
      let sz := ids.length
      if currentBackOffset < sz then
        let r :=
          if i < 10 then shortChainHistoryGo ids rounds (i + 1) currentMultiplier
            (currentBackOffset + 1)
          else shortChainHistoryGo ids rounds (i + 1) (currentMultiplier * 2)
            (currentBackOffset + currentMultiplier * 2)
        (ids.getD (sz - currentBackOffset) nullHash :: r.1, decide (sz - currentBackOffset = 0) || r.2)
      else ([], false)

/-- The body that both `get_short_chain_history` share, for the ids of a chain. -/
def shortChainHistory (ids : List Hash) : List Hash :=
  if ids.length = 0 then []
  else
    let r := shortChainHistoryGo ids ids.length 0 1 1
    if r.2 then r.1 else r.1 ++ [ids.getD 0 nullHash]

def getShortChainHistory (E : Env) (blocks : List BlockExtendedInfo) : List Hash :=
  shortChainHistory (blockIds E blocks)

/-- `wallet2::get_short_chain_history`. -/
def walletShortChainHistory (blockchain : List Hash) : List Hash := shortChainHistory blockchain

/-- `get_transactions`: those found on the chain or in the pool, and the ids of the others. -/
def getTransactions (n : Node) : List Hash → List Transaction × List Hash
  | [] => ([], [])
  | txId :: l =>
      let r := getTransactions n l
      match n.txs.index.transactions.get txId with
      | some e => (e.tx :: r.1, r.2)
      | none =>
          match n.txs.pool.transactions.get txId with
          | some d => (d.tx :: r.1, r.2)
          | none => (r.1, txId :: r.2)

/-- `find_blockchain_supplement(qblock_ids, starter_offset)`. -/
def findSplitPoint (E : Env) (n : Node) (qblockIds : List Hash) : Option ℕ :=
  match n.blocks.head? with
  | none => none
  | some genesis =>
      -- an empty request has no last id either
      if qblockIds.getLast? = some (getBlockHash E genesis.bl) then
        qblockIds.findSome? n.blocksIndex.get
      else none

/-- The loop from the block at `i` to the end of the chain, at most `count` blocks; `none` is an
access behind the end. -/
def blocksFrom (blocks : List BlockExtendedInfo) : ℕ → ℕ → Option (List BlockExtendedInfo)
  | 0, _ => some []
  | count + 1, i =>
      if i = blocks.length then some []
      else
        match blocks[i]? with
        | none => none
        | some bei => (blocksFrom blocks count (i + 1)).map (bei :: ·)

/-- `NOTIFY_RESPONSE_CHAIN_ENTRY::request`. -/
structure ResponseChainEntry where
  startHeight : ℕ
  totalHeight : ℕ
  blockIds : List Hash

/-- `find_blockchain_supplement(qblock_ids, resp)`. -/
def findBlockchainSupplement (E : Env) (n : Node) (qblockIds : List Hash) :
    Option ResponseChainEntry :=
  match findSplitPoint E n qblockIds with
  | none => none
  | some startHeight =>
      (blocksFrom n.blocks BLOCKS_IDS_SYNCHRONIZING_DEFAULT_COUNT startHeight).map fun l =>
        ⟨startHeight, n.blocks.length, blockIds E l⟩

/-- What `find_blockchain_supplement` with transactions fills in. -/
structure BlocksSupplement where
  blocks : List (Block × List Transaction)
  totalHeight : ℕ
  startHeight : ℕ

/-- The blocks with their transactions; a transaction that is not found ends the call with `false`. -/
def withTransactions (n : Node) : List BlockExtendedInfo → Option (List (Block × List Transaction))
  | [] => some []
  | bei :: l =>
      let r := getTransactions n bei.bl.txHashes
      if r.2 = [] then (withTransactions n l).map ((bei.bl, r.1) :: ·) else none

/-- `find_blockchain_supplement(qblock_ids, blocks, total_height, start_height, max_count)`. -/
def findBlockchainSupplementBlocks (E : Env) (n : Node) (qblockIds : List Hash) (maxCount : ℕ) :
    Option BlocksSupplement :=
  match findSplitPoint E n qblockIds with
  | none => none
  | some startHeight =>
      match blocksFrom n.blocks maxCount startHeight with
      | none => none
      | some l => (withTransactions n l).map fun blocks => ⟨blocks, n.blocks.length, startHeight⟩

/-- `h` lists the ids at `heights`, which go down from the top block to genesis. -/
structure ShortHistory (ids : List Hash) (heights : List ℕ) (h : List Hash) : Prop where
  decreasing : heights.Pairwise (· > ·)
  top : heights.head? = some (ids.length - 1)
  genesis : heights.getLast? = some 0
  listed : h.map some = heights.map fun k => ids[k]?

theorem map_some_getD {ids : List Hash} {heights : List ℕ} (h : ∀ k ∈ heights, k < ids.length) :
    (heights.map fun k => ids.getD k nullHash).map some = heights.map fun k => ids[k]? := by
  rw [List.map_map]
  refine List.map_congr_left fun k hk => ?_
  rw [Function.comp_apply, List.getD_eq_getElem?_getD, List.getElem?_eq_getElem (h k hk)]
  rfl

theorem ShortHistory.nodup {ids h : List Hash} {heights : List ℕ} (hl : ShortHistory ids heights h)
    (hids : ids.Nodup) : h.Nodup := by
  have hheights : heights.Nodup := hl.decreasing.imp fun hlt => (ne_of_lt hlt).symm
  refine List.Nodup.of_map some ?_
  rw [hl.listed]
  refine hheights.map_on fun k hk k' _ heq => ?_
  have hk : ids[k]? ∈ h.map some := hl.listed ▸ List.mem_map_of_mem hk
  obtain ⟨id, -, hid⟩ := List.mem_map.mp hk
  exact (List.getElem?_inj (List.getElem?_eq_some_iff.mp hid.symm).1 hids).mp heq

/-- The loop lists heights above genesis, from the one at its offset downwards. -/
theorem shortChainHistoryGo_spec (ids : List Hash) {rounds i multiplier offset : ℕ}
    (hm : 1 ≤ multiplier) (ho : 1 ≤ offset) (hr : ids.length ≤ rounds + offset) :
    ∃ heights : List ℕ, shortChainHistoryGo ids rounds i multiplier offset =
        (heights.map fun k => ids.getD k nullHash, false) ∧
      heights.Pairwise (· > ·) ∧ (∀ k ∈ heights, 1 ≤ k ∧ k + offset ≤ ids.length) ∧
      (offset < ids.length → heights.head? = some (ids.length - offset)) := by
  induction rounds generalizing i multiplier offset with
  | zero => exact ⟨[], rfl, .nil, by simp, fun h => absurd h (by omega)⟩
  | succ rounds ih =>
    unfold shortChainHistoryGo
    by_cases hlt : offset < ids.length
    swap
    · exact ⟨[], by simp [hlt], .nil, by simp, fun h => absurd h hlt⟩
    -- the next round starts further down, whichever step it takes
    obtain ⟨multiplier', offset', hm', hstep, hr', hnext⟩ : ∃ multiplier' offset',
        1 ≤ multiplier' ∧ offset + 1 ≤ offset' ∧ ids.length ≤ rounds + offset' ∧
        (if i < 10 then shortChainHistoryGo ids rounds (i + 1) multiplier (offset + 1)
          else shortChainHistoryGo ids rounds (i + 1) (multiplier * 2) (offset + multiplier * 2)) =
        shortChainHistoryGo ids rounds (i + 1) multiplier' offset' := by
      by_cases hi : i < 10
      · exact ⟨multiplier, offset + 1, hm, le_rfl, by omega, if_pos hi⟩
      · exact ⟨multiplier * 2, offset + multiplier * 2, by omega, by omega, by omega, if_neg hi⟩
    obtain ⟨heights, hgo, hdecr, hbound, -⟩ :=
      ih (i := i + 1) hm' (by omega : 1 ≤ offset') hr'
    have hpos : ¬ids.length - offset = 0 := by omega
    refine ⟨(ids.length - offset) :: heights, ?_, ?_, ?_, fun _ => rfl⟩
    · simp only [hlt, if_true, hnext, hgo, hpos, decide_false, Bool.false_or, List.map_cons]
    · refine List.pairwise_cons.mpr ⟨fun k hk => ?_, hdecr⟩
      have := (hbound k hk).2
      omega
    · intro k hk
      rcases List.mem_cons.mp hk with rfl | hk
      · omega
      · have := hbound k hk
        omega

theorem shortChainHistory_spec {ids : List Hash} (hne : ids ≠ []) :
    ∃ heights, ShortHistory ids heights (shortChainHistory ids) := by
  have hlen := List.length_pos_iff.mpr hne
  obtain ⟨heights, hgo, hdecr, hbound, htop⟩ :=
    shortChainHistoryGo_spec ids (i := 0) le_rfl le_rfl (by omega : ids.length ≤ ids.length + 1)
  refine ⟨heights ++ [0], ?_, ?_, List.getLast?_concat, ?_⟩
  · rw [List.pairwise_append]
    refine ⟨hdecr, List.pairwise_singleton _ _, fun k hk k' hk' => ?_⟩
    rw [List.mem_singleton.mp hk']
    exact (hbound k hk).1
  · -- a chain of one block has no round at all
    by_cases hone : 1 < ids.length
    · rw [List.head?_append, htop hone]
      rfl
    · have hnil : heights = [] := List.eq_nil_iff_forall_not_mem.mpr fun k hk => by
        have := hbound k hk
        omega
      rw [hnil, List.nil_append, List.head?_cons]
      congr 1
      omega
  · have hall : ∀ k ∈ heights ++ [0], k < ids.length := by
      intro k hk
      rcases List.mem_append.mp hk with hk | hk
      · have := hbound k hk
        omega
      · rw [List.mem_singleton.mp hk]
        exact hlen
    rw [← map_some_getD hall]
    unfold shortChainHistory
    simp only [hgo, if_neg hlen.ne', Bool.false_eq_true, if_false, List.map_append,
      List.map_singleton]

theorem blocksFrom_eq {blocks : List BlockExtendedInfo} {count i : ℕ} (hi : i ≤ blocks.length) :
    blocksFrom blocks count i = some ((blocks.drop i).take count) := by
  induction count generalizing i with
  | zero => simp [blocksFrom]
  | succ count ih =>
    unfold blocksFrom
    by_cases hend : i = blocks.length
    · simp [hend]
    · have hlt : i < blocks.length := by omega
      rw [if_neg hend, List.getElem?_eq_getElem hlt]
      simp only [ih hlt, Option.map_some]
      rw [List.drop_eq_getElem_cons hlt, List.take_succ_cons]

section Supplement

variable {E : Env} {cps : Checkpoints} {n : Node}

/-- The transactions a node stores have the ids they are stored under. -/
theorem hash_of_reachable (h : Reachable E cps n) {id : Hash} {e : TransactionChainEntry}
    (he : n.txs.index.transactions.get id = some e) : getTransactionHash E e.tx = id := by
  obtain ⟨F, chain, -, -, hrep⟩ := chainInv_of_reachable h
  have hl := hrep.txs.linked
  rw [hrep.txs.index] at he
  obtain ⟨l₁, te, l₂, hsplit, rfl, rfl⟩ := transactions_indexOf_some hl.nodup_ids he
  rw [hsplit] at hl
  exact hl.addable.hash

theorem getTransactions_of_reachable (h : Reachable E cps n) {bei : BlockExtendedInfo}
    (hbei : bei ∈ n.blocks) {l : List Hash} (hl : ∀ id ∈ l, id ∈ bei.bl.txHashes) :
    (getTransactions n l).2 = [] ∧ (getTransactions n l).1.map (getTransactionHash E) = l := by
  induction l with
  | nil => exact ⟨rfl, rfl⟩
  | cons id l ih =>
    obtain ⟨hmissed, hids⟩ := ih fun id' hid' => hl id' (by simp [hid'])
    obtain ⟨i, hi⟩ := List.mem_iff_getElem?.mp hbei
    obtain ⟨e, he, -⟩ := ((wellFormed_of_reachable E cps n h).transactions id i).mpr
      ⟨bei, hi, Or.inr (hl id (by simp))⟩
    unfold getTransactions
    simp only [he]
    exact ⟨hmissed, by rw [List.map_cons, hids, hash_of_reachable h he]⟩

theorem withTransactions_of_reachable (h : Reachable E cps n) {l : List BlockExtendedInfo}
    (hl : ∀ bei ∈ l, bei ∈ n.blocks) :
    ∃ r, withTransactions n l = some r ∧ r.map Prod.fst = l.map BlockExtendedInfo.bl ∧
      ∀ p ∈ r, p.2.map (getTransactionHash E) = p.1.txHashes := by
  induction l with
  | nil => exact ⟨[], rfl, rfl, by simp⟩
  | cons bei l ih =>
    obtain ⟨r, hr, hblocks, htxs⟩ := ih fun bei' hb' => hl bei' (by simp [hb'])
    obtain ⟨hmissed, hids⟩ := getTransactions_of_reachable h (hl bei (by simp)) fun _ hid => hid
    refine ⟨(bei.bl, (getTransactions n bei.bl.txHashes).1) :: r, ?_, by simp [hblocks], ?_⟩
    · simp only [withTransactions, hmissed, if_true, hr, Option.map_some]
    · intro p hp
      rcases List.mem_cons.mp hp with rfl | hp
      · exact hids
      · exact htxs p hp

/-- The node `b` answers the history `h`, which lists `heights` of the chain `ids`: it starts with the
highest listed block it has, and gives its own blocks from there on. -/
structure Answered (E : Env) (ids : List Hash) (heights : List ℕ) (h : List Hash) (b : Node)
    (k start : ℕ) : Prop where
  mem : k ∈ heights
  common : ids[k]? = (blockIds E b.blocks)[start]?
  lt : start < b.blocks.length
  highest : ∀ k' ∈ heights, k < k' → ∀ id, ids[k']? = some id → id ∉ blockIds E b.blocks
  ids : findBlockchainSupplement E b h = some ⟨start, b.blocks.length,
    ((blockIds E b.blocks).drop start).take BLOCKS_IDS_SYNCHRONIZING_DEFAULT_COUNT⟩
  blocks : ∀ maxCount, ∃ r, findBlockchainSupplementBlocks E b h maxCount =
      some ⟨r, b.blocks.length, start⟩ ∧
    r.map Prod.fst = ((b.blocks.drop start).take maxCount).map BlockExtendedInfo.bl ∧
    ∀ p ∈ r, p.2.map (getTransactionHash E) = p.1.txHashes

theorem mem_blockIds_iff (h : Reachable E cps n) {id : Hash} :
    id ∈ blockIds E n.blocks ↔ n.blocksIndex.get id ≠ none := by
  rw [Option.ne_none_iff_exists']
  simp only [(wellFormed_of_reachable E cps n h).blocksIndex]
  unfold blockIds
  rw [List.mem_map]
  constructor
  · rintro ⟨bei, hbei, rfl⟩
    obtain ⟨i, hi⟩ := List.mem_iff_getElem?.mp hbei
    exact ⟨i, bei, hi, rfl⟩
  · rintro ⟨i, bei, hi, rfl⟩
    exact ⟨bei, List.mem_iff_getElem?.mpr ⟨i, hi⟩, rfl⟩

theorem findSplitPoint_spec (h : Reachable E cps n) {ids : List Hash} {heights : List ℕ}
    {l : List Hash} (hgenesis : ids.head? = (blockIds E n.blocks).head?)
    (hl : ShortHistory ids heights l) (hne : ids ≠ []) :
    ∃ k start, findSplitPoint E n l = some start ∧ k ∈ heights ∧
      ids[k]? = (blockIds E n.blocks)[start]? ∧ start < n.blocks.length ∧
      ∀ k' ∈ heights, k < k' → ∀ id, ids[k']? = some id → id ∉ blockIds E n.blocks := by
  obtain ⟨g, hg⟩ : ∃ g, n.blocks.head? = some g := by
    cases hb : n.blocks.head? with
    | some g => exact ⟨g, rfl⟩
    | none =>
      rw [List.head?_eq_none_iff] at hb
      rw [hb, show blockIds E [] = [] from rfl, List.head?_nil, List.head?_eq_none_iff] at hgenesis
      exact absurd hgenesis hne
  have hids : ids[0]? = some (getBlockHash E g.bl) := by
    rw [← List.head?_eq_getElem?, hgenesis, blockIds, List.head?_map, hg]
    rfl
  have hlast : l.getLast? = some (getBlockHash E g.bl) := by
    have := congrArg List.getLast? hl.listed
    rw [List.getLast?_map, List.getLast?_map, hl.genesis, Option.map_some, hids] at this
    cases hq : l.getLast? with
    | none => simp [hq] at this
    | some id =>
      rw [hq, Option.map_some] at this
      exact Option.some.inj this
  -- genesis is on the chain, so the search cannot fail
  have hsome : (l.findSome? n.blocksIndex.get).isSome := by
    rw [List.findSome?_isSome_iff]
    refine ⟨_, List.mem_of_getLast? hlast, Option.isSome_iff_ne_none.mpr ?_⟩
    rw [← mem_blockIds_iff h]
    exact List.mem_map_of_mem (List.mem_of_head? hg)
  obtain ⟨start, hstart⟩ := Option.isSome_iff_exists.mp hsome
  obtain ⟨l₁, id, l₂, hsplit, hid, hbefore⟩ := List.findSome?_eq_some_iff.mp hstart
  have hmap := hl.listed
  rw [hsplit, List.map_append, List.map_cons] at hmap
  obtain ⟨hs₁, tl, rfl, h₁, htl⟩ := List.map_eq_append_iff.mp hmap.symm
  obtain ⟨k, hs₂, rfl, hk, -⟩ := List.map_eq_cons_iff.mp htl
  obtain ⟨bei, hbei, rfl⟩ := ((wellFormed_of_reachable E cps n h).blocksIndex id start).mp hid
  refine ⟨k, start, ?_, by simp, ?_, (List.getElem?_eq_some_iff.mp hbei).1, ?_⟩
  · unfold findSplitPoint
    simp only [hg, hlast, if_true, hstart]
  · rw [hk, blockIds, List.getElem?_map, hbei]
    rfl
  · intro k' hk' hlt id' hid'
    -- a greater height stands before `k`, where nothing was found
    have hmem : k' ∈ hs₁ := by
      rcases List.mem_append.mp hk' with hm | hm
      · exact hm
      · have hle : k' ≤ k := by
          rcases List.mem_cons.mp hm with rfl | hm
          · exact le_rfl
          · exact (List.rel_of_pairwise_cons (List.pairwise_append.mp hl.decreasing).2.1 hm).le
        omega
    rw [mem_blockIds_iff h, not_not]
    refine hbefore id' ?_
    have : some id' ∈ l₁.map some := by
      rw [← h₁, ← hid']
      exact List.mem_map_of_mem hmem
    simpa using this

/-- A node answers the history of any chain that starts with its own genesis block. -/
theorem answered_of_reachable (h : Reachable E cps n) {ids : List Hash} (hne : ids ≠ [])
    (hgenesis : ids.head? = (blockIds E n.blocks).head?) :
    ∃ heights, ShortHistory ids heights (shortChainHistory ids) ∧
      ∃ k start, Answered E ids heights (shortChainHistory ids) n k start := by
  obtain ⟨heights, hl⟩ := shortChainHistory_spec hne
  obtain ⟨k, start, hsplit, hk, hcommon, hlt, hhighest⟩ := findSplitPoint_spec h hgenesis hl hne
  refine ⟨heights, hl, k, start, hk, hcommon, hlt, hhighest, ?_, fun maxCount => ?_⟩
  · unfold findBlockchainSupplement
    simp only [hsplit, blocksFrom_eq hlt.le, Option.map_some, blockIds, List.map_take,
      List.map_drop]
  · obtain ⟨r, hr, hblocks, htxs⟩ := withTransactions_of_reachable h
      (l := (n.blocks.drop start).take maxCount)
      fun bei hbei => List.mem_of_mem_drop (List.mem_of_mem_take hbei)
    refine ⟨r, ?_, hblocks, htxs⟩
    unfold findBlockchainSupplementBlocks
    simp only [hsplit, blocksFrom_eq hlt.le, hr, Option.map_some]

theorem nodup_blockIds (h : Reachable E cps n) : (blockIds E n.blocks).Nodup := by
  have hw := wellFormed_of_reachable E cps n h
  refine List.nodup_iff_injective_getElem.mpr fun i j hij => ?_
  have hget : ∀ (i : Fin (blockIds E n.blocks).length) {id : Hash}, (blockIds E n.blocks)[i.1] = id →
      n.blocksIndex.get id = some i.1 := by
    rintro ⟨i, hi⟩ id rfl
    have hi' : i < n.blocks.length := by simpa [blockIds] using hi
    exact (hw.blocksIndex _ i).mpr ⟨n.blocks[i], List.getElem?_eq_getElem hi', by simp [blockIds]⟩
  exact Fin.ext (Option.some.inj ((hget i hij).symm.trans (hget j rfl)))

/-- Blocks of two nodes with one id have one height, unless two blocks have one id. -/
theorem height_eq_of_common {cps' : Checkpoints} {n' : Node} (h : Reachable E cps n)
    (h' : Reachable E cps' n')
    (hinj : Set.InjOn (getBlockHash E) {bl | ∃ bei ∈ n.blocks ++ n'.blocks, bei.bl = bl}) {k start : ℕ}
    (hlt : start < n'.blocks.length)
    (hcommon : (blockIds E n.blocks)[k]? = (blockIds E n'.blocks)[start]?) : start = k := by
  rw [blockIds, blockIds, List.getElem?_map, List.getElem?_map, List.getElem?_eq_getElem hlt] at hcommon
  obtain ⟨bei, hbei, hid⟩ := Option.map_eq_some_iff.mp hcommon
  have hbl : bei.bl = n'.blocks[start].bl := hinj
    ⟨bei, List.mem_append_left _ (List.mem_iff_getElem?.mpr ⟨k, hbei⟩), rfl⟩
    ⟨_, List.mem_append_right _ (List.getElem_mem hlt), rfl⟩ hid
  obtain ⟨-, g, hg, hk⟩ := (wellFormed_of_reachable E cps n h).height k bei hbei
  obtain ⟨-, g', hg', hs⟩ := (wellFormed_of_reachable E cps' n' h').height start _
    (List.getElem?_eq_getElem hlt)
  rw [hbl, hg', List.cons.injEq] at hg
  rw [← hk, ← hs, Txin.gen.inj hg.1]

/-- A node or a wallet sends its short chain history, and a node with the same genesis block answers
with its blocks from the highest listed one on. -/
theorem supplement_of_history (E : Env) (cps cps' : Checkpoints) (a b : Node)
    (ha : Reachable E cps a) (hb : Reachable E cps' b)
    (hgenesis : (blockIds E a.blocks).head? = (blockIds E b.blocks).head?) :
    (∃ heights, ShortHistory (blockIds E a.blocks) heights (getShortChainHistory E a.blocks) ∧
      (getShortChainHistory E a.blocks).Nodup ∧ ∃ k start,
        Answered E (blockIds E a.blocks) heights (getShortChainHistory E a.blocks) b k start ∧
        (Set.InjOn (getBlockHash E) {bl | ∃ bei ∈ a.blocks ++ b.blocks, bei.bl = bl} → start = k)) ∧
    ∀ blockchain : List Hash, blockchain ≠ [] →
      blockchain.head? = (blockIds E b.blocks).head? →
      ∃ heights, ShortHistory blockchain heights (walletShortChainHistory blockchain) ∧
        (blockchain.Nodup → (walletShortChainHistory blockchain).Nodup) ∧ ∃ k start,
          Answered E blockchain heights (walletShortChainHistory blockchain) b k start := by
  constructor
  · have hne : blockIds E a.blocks ≠ [] := by
      obtain ⟨F, chain, -, ⟨t, hv⟩, hrep⟩ := chainInv_of_reachable ha
      rw [hrep.blocks]
      cases hv <;> simp [blockIds, blocksOf]
    obtain ⟨heights, hl, k, start, hans⟩ := answered_of_reachable hb hne hgenesis
    exact ⟨heights, hl, hl.nodup (nodup_blockIds ha), k, start, hans, fun hinj =>
      height_eq_of_common ha hb hinj hans.lt hans.common⟩
  · intro blockchain hne hg
    obtain ⟨heights, hl, k, start, hans⟩ := answered_of_reachable hb hne hg
    exact ⟨heights, hl, hl.nodup, k, start, hans⟩

theorem supplement_sampleFork : ∃ a b, Reachable sampleEnv ∅ a ∧ Reachable sampleEnv ∅ b ∧
    a.blocks.length = 3 ∧ b.blocks.length = 2 ∧
    (blockIds sampleEnv a.blocks)[1]? ≠ (blockIds sampleEnv b.blocks)[1]? ∧
    ∃ heights k start, Answered sampleEnv (blockIds sampleEnv a.blocks) heights
      (getShortChainHistory sampleEnv a.blocks) b k start := by
  have h : ((sampleNode ∅ 2).bind fun a => (initNode sampleEnv 0 ∅).bind fun n₀ =>
      (addNewBlock sampleEnv 0 1 {} n₀ (sampleBlock sampleEnv n₀.blocks 1 [] 0 sampleKey)).map
        fun r => (a.blocks.length, r.2.2.blocks.length,
          decide ((blockIds sampleEnv a.blocks)[1]? ≠ (blockIds sampleEnv r.2.2.blocks)[1]?),
          decide ((blockIds sampleEnv a.blocks).head? = (blockIds sampleEnv r.2.2.blocks).head?))) =
      some (3, 2, true, true) := by decide +kernel
  obtain ⟨a, ha, h⟩ := Option.bind_eq_some_iff.mp h
  obtain ⟨n₀, hinit, h⟩ := Option.bind_eq_some_iff.mp h
  obtain ⟨⟨ok, bvc, b⟩, hadd, h⟩ := Option.map_eq_some_iff.mp h
  simp only [Prod.mk.injEq, decide_eq_true_eq] at h
  obtain ⟨hla, hlb, hfork, hgenesis⟩ := h
  have hra := reachable_sampleNode ha
  have hrb : Reachable sampleEnv ∅ b := by
    refine ⟨0, n₀, [.block 0 1 (sampleBlock sampleEnv n₀.blocks 1 [] 0 sampleKey)], hinit, ?_⟩
    simp only [run, Event.apply, hadd, Option.map_some]
  obtain ⟨⟨heights, -, -, k, start, hans, -⟩, -⟩ :=
    supplement_of_history sampleEnv ∅ ∅ a b hra hrb hgenesis
  exact ⟨a, b, hra, hrb, hla, hlb, hfork, heights, k, start, hans⟩

end Supplement

end Boolberry
