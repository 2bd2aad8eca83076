import Boolberry.Verdicts

/-!
# Ring signatures under checkpoints

Ring signatures are dropped in two places: a block in the checkpoint zone is added without them, and
`set_checkpoints` clears them from the blocks that come to lie in the zone. A chain with the
signatures of its lower blocks cut off is one the node could have built under other checkpoints, so
what is known of pushes and pops carries over.
-/

namespace Boolberry
open KeyValue TxMemoryPool

/-- What is stored of the transaction when the last checkpoint is at `top`. -/
def prunedTx (top height : ℕ) (tx : Transaction) : Transaction :=
  if isCoinbase tx then tx else cutIn (decide (height ≤ top)) tx

def TxEntry.pruned (top : ℕ) (te : TxEntry) : TxEntry :=
  { te with tx := prunedTx top te.height te.tx }

def ChainBlock.pruned (top : ℕ) (c : ChainBlock) : ChainBlock :=
  { c with txs := c.txs.map (TxEntry.pruned top) }

def prunedChain (top : ℕ) (chain : List ChainBlock) : List ChainBlock :=
  chain.map (ChainBlock.pruned top)

/-- The entry as a block in the zone, or outside it, keeps it. -/
def TxEntry.cut (zone : Bool) (te : TxEntry) : TxEntry := { te with tx := cutIn zone te.tx }

@[simp] theorem blocksOf_prunedChain (top : ℕ) (chain : List ChainBlock) :
    blocksOf (prunedChain top chain) = blocksOf chain := by
  simp [blocksOf, prunedChain, ChainBlock.pruned]

@[simp] theorem prunedChain_length (top : ℕ) (chain : List ChainBlock) :
    (prunedChain top chain).length = chain.length := by
  simp [prunedChain]

theorem toTransactionPrefix_cutIn (zone : Bool) (tx : Transaction) :
    (cutIn zone tx).toTransactionPrefix = tx.toTransactionPrefix := by
  cases zone <;> rfl

theorem toTransactionPrefix_prunedTx (top height : ℕ) (tx : Transaction) :
    (prunedTx top height tx).toTransactionPrefix = tx.toTransactionPrefix := by
  unfold prunedTx
  split_ifs
  · rfl
  · exact toTransactionPrefix_cutIn _ tx

theorem TxEntry.bare_cut (zone : Bool) (te : TxEntry) : (te.cut zone).bare = te.bare := by
  cases zone <;> rfl

theorem TxEntry.bare_pruned (top : ℕ) (te : TxEntry) : (te.pruned top).bare = te.bare := by
  unfold TxEntry.bare TxEntry.pruned
  dsimp only
  rw [toTransactionPrefix_prunedTx]

theorem bare_map_pruned (top : ℕ) (l : List TxEntry) :
    (l.map (TxEntry.pruned top)).map TxEntry.bare = l.map TxEntry.bare := by
  rw [List.map_map]
  exact List.map_congr_left fun te _ => te.bare_pruned top

section Valid

variable {E : Env} {l l' : List TxEntry}

/-- A transaction that can follow can do so without its signatures. -/
theorem Addable.cut {te : TxEntry} (zone : Bool) (h : Addable E l te) : Addable E l (te.cut zone) := by
  cases zone with
  | false => exact h
  | true =>
    exact ⟨⟨h.resolves, h.nodup, h.fresh⟩, h.hash, h.id_notMem, h.extra,
      fun hcoin => (h.semantic hcoin).cutIn true⟩

/-- In the zone an input passes with any signature if it passes with one outside. -/
theorem checkTxInputsGo_inZone {s : TxIndex} {now height : ℕ} {ph : Hash} {vin : List Txin}
    {sigs sigs' : List (List Signature)} {m r : ℕ}
    (h : TxIndex.checkTxInputsGo E s now height false ph vin sigs m = some r) :
    TxIndex.checkTxInputsGo E s now height true ph vin sigs' m = some r := by
  induction vin generalizing sigs sigs' m with
  | nil =>
    simp only [TxIndex.checkTxInputsGo, Bool.false_or] at h
    split_ifs at h
    exact h
  | cons i l ih =>
    cases i with
    | toKey txin =>
      obtain ⟨hring, hkey, -, m', hc, hgo⟩ := checkTxInputsGo_cons.mp h
      refine checkTxInputsGo_cons.mpr ⟨hring, hkey, rfl, m', ?_, ih hgo⟩
      simp only [TxIndex.checkTxInput, Bool.false_eq_true, if_false, if_true] at hc ⊢
      cases hscan : s.scanOutputkeysForIndexes now height txin with
      | none => simp [hscan] at hc
      | some q =>
        simp only [hscan] at hc ⊢
        split_ifs at hc ⊢
        exact hc
    | gen g => simp [TxIndex.checkTxInputsGo] at h
    | toScript a b c => simp [TxIndex.checkTxInputsGo] at h
    | toScripthash a b c d => simp [TxIndex.checkTxInputsGo] at h

/-- The transactions of a block are in order behind the same chain with other signatures, and with
their own signatures cut off in a larger zone. -/
theorem TxsOK.cut {t h : ℕ} {zone zone' : Bool} {es : List TxEntry} (hl : Linked E l)
    (hl' : Linked E l') (hbare : l.map TxEntry.bare = l'.map TxEntry.bare)
    (hz : zone = true → zone' = true) (hok : TxsOK E t h zone l es) :
    TxsOK E t h zone' l' (es.map (TxEntry.cut zone')) := by
  induction es generalizing l l' with
  | nil => trivial
  | cons te es ih =>
    obtain ⟨hadd, hsem, hheight, hcut, hcheck, hrest⟩ := hok
    have hadd' : Addable E l' (te.cut zone') := (hadd.congr hbare).cut zone'
    refine ⟨hadd', hsem.cutIn zone', hheight, cutIn_cutIn zone' te.tx, ?_, ?_⟩
    · have hsame := sameTxs_of_bare hl hl' hbare (fun _ _ => false) fun _ _ => false
      rw [hsame.checkTxInputs] at hcheck
      cases zone' with
      | false =>
        have hout : zone = false := Bool.eq_false_iff.mpr fun hin => by cases hz hin
        rwa [hout] at hcheck
      | true =>
        cases zone with
        | true =>
          change Boolberry.cutIn true te.tx = te.tx at hcut
          change (TxIndex.checkTxInputs E _ t h true (Boolberry.cutIn true te.tx)).isSome = true
          rwa [hcut]
        | false =>
          obtain ⟨r, hr⟩ := Option.isSome_iff_exists.mp hcheck
          have hin : TxIndex.checkTxInputs E (indexOf (fun _ _ => false) l') t h true
              (Boolberry.cutIn true te.tx) = some r := checkTxInputsGo_inZone hr
          change (TxIndex.checkTxInputs E _ t h true (Boolberry.cutIn true te.tx)).isSome = true
          rw [hin]
          rfl
    · refine ih (hl.snoc hadd) (hl'.snoc hadd') ?_ hrest
      rw [List.map_append, List.map_append, hbare, List.map_singleton, List.map_singleton,
        TxEntry.bare_cut]

theorem sizesOf_cut (zone : Bool) (es : List TxEntry) (size : ℕ) :
    sizesOf (es.map (TxEntry.cut zone)) size = sizesOf es size := by
  unfold sizesOf
  rw [List.foldl_map]
  simp only [TxEntry.cut, getObjectBlobsize_cutIn]

theorem feesOf_cut (zone : Bool) (es : List TxEntry) (fee : UInt64) :
    feesOf (es.map (TxEntry.cut zone)) fee = feesOf es fee := by
  unfold feesOf
  rw [List.foldl_map]
  simp only [TxEntry.cut, feeOf_cutIn]

/-- Checkpoints with a given zone at one height, which the block of that height meets. -/
theorem exists_zone (h : ℕ) (id : Hash) (zone : Bool) : ∃ cps : Checkpoints,
    cps.isInCheckpointZone h = zone ∧ cps.checkBlock h id = true := by
  cases zone with
  | false => exact ⟨∅, decide_eq_false fun hin => hin.1 rfl, by simp [Checkpoints.checkBlock]⟩
  | true =>
    refine ⟨(∅ : Checkpoints).set h id, isInCheckpointZone_of_mem ?_, ?_⟩
    · exact Map.mem_keys.mpr ⟨id, Map.get_set_self _ _ _⟩
    · simp [Checkpoints.checkBlock]

/-- A block is valid next to the same chain with other signatures, and without its own in a zone that
covers it. -/
theorem ValidNext.cut {cps : Checkpoints} {t : ℕ} {chain chain' : List ChainBlock} {c : ChainBlock}
    {zone : Bool} (hblocks : blocksOf chain' = blocksOf chain) (hl : Linked E (entriesOf E chain))
    (hl' : Linked E (entriesOf E chain'))
    (hbare : (entriesOf E chain).map TxEntry.bare = (entriesOf E chain').map TxEntry.bare)
    (hz : cps.isInCheckpointZone chain.length = true → zone = true) (h : ValidNext E cps t chain c) :
    ∃ cps' : Checkpoints, cps'.isInCheckpointZone chain.length = zone ∧
      ValidNext E cps' t chain' { c with txs := c.txs.map (TxEntry.cut zone) } := by
  obtain ⟨cps', hzone, hcheck⟩ := exists_zone chain.length (getBlockHash E c.bei.bl) zone
  have hlen : chain'.length = chain.length := by
    rw [← blocksOf_length, hblocks, blocksOf_length]
  have hcoin : Addable E (entriesOf E chain') (coinbaseEntry E c.bei) := h.coinbase.congr hbare
  refine ⟨cps', hzone, ⟨?_, hcoin, ?_, ?_, ?_, ?_⟩⟩
  · have hh := h.header
    rw [hblocks]
    exact ⟨hh.prevId, hh.future, hh.timestamp, hh.difficulty, hh.pow,
      fun _ => by rwa [blocksOf_length], hh.miner⟩
  · rw [← h.txIds, List.map_map]
    rfl
  · rw [hlen, hzone]
    refine h.txs.cut (hl.snoc h.coinbase) (hl'.snoc hcoin) ?_ hz
    rw [List.map_append, List.map_append, hbare]
  · rw [hblocks]
    exact h.fresh
  · obtain ⟨baseReward, donationTotal, hmine, hbei⟩ := h.record
    refine ⟨baseReward, donationTotal, ?_, ?_⟩
    · dsimp only
      rw [hblocks, sizesOf_cut, feesOf_cut]
      exact hmine
    · dsimp only
      rw [hblocks, sizesOf_cut]
      exact hbei

end Valid

/-- A chain whose blocks were added under different checkpoints, and whose transactions are stored as
under checkpoints up to `top`. -/
inductive PrunedChain (E : Env) (top : ℕ) : List ChainBlock → Prop
  | genesis {t : ℕ} {c : ChainBlock} : ValidNext E ∅ t [] c → c.txs = [] → PrunedChain E top [c]
  | snoc {t : ℕ} {cps : Checkpoints} {chain : List ChainBlock} {c : ChainBlock} :
      PrunedChain E top chain → ValidNext E cps t chain c →
      cps.isInCheckpointZone chain.length = decide (chain.length ≤ top) →
      PrunedChain E top (chain ++ [c])

section Chain

variable {E : Env} {top : ℕ} {chain : List ChainBlock} {c : ChainBlock}

theorem PrunedChain.ne_nil (h : PrunedChain E top chain) : chain ≠ [] := by
  cases h <;> simp

theorem PrunedChain.of_append_singleton (h : PrunedChain E top (chain ++ [c])) (hne : chain ≠ []) :
    PrunedChain E top chain ∧ ∃ cps t, ValidNext E cps t chain c := by
  generalize hm : chain ++ [c] = m at h
  cases h with
  | genesis _ =>
    have hlen := congrArg List.length hm
    simp only [List.length_append, List.length_cons, List.length_nil] at hlen
    exact absurd (List.length_eq_zero_iff.mp (by omega)) hne
  | snoc hl hc =>
    obtain ⟨rfl, hte⟩ := List.append_inj' hm rfl
    obtain rfl := List.singleton_injective hte
    exact ⟨hl, _, _, hc⟩

/-- Every block was valid next to the blocks before it, behind genesis in the zone of its height. -/
theorem PrunedChain.valid (h : PrunedChain E top chain) {i : ℕ} (hi : chain[i]? = some c) :
    (∃ cps t, ValidNext E cps t (chain.take i) c ∧
      (i ≠ 0 → cps.isInCheckpointZone i = decide (i ≤ top))) ∧ (i = 0 → c.txs = []) := by
  induction h with
  | genesis hc htxs =>
    obtain ⟨hlt, rfl⟩ := List.getElem?_eq_some_iff.mp hi
    obtain rfl : i = 0 := by simpa using hlt
    exact ⟨⟨∅, _, hc, fun hne => absurd rfl hne⟩, fun _ => htxs⟩
  | @snoc t cps chain c' hv hc hzone ih =>
    rcases lt_or_ge i chain.length with hlt | hge
    · rw [List.getElem?_append_left hlt] at hi
      rw [List.take_append_of_le_length hlt.le]
      exact ih hi
    · rw [List.getElem?_append_right hge, List.getElem?_singleton] at hi
      split_ifs at hi with hzero
      obtain rfl : c' = c := Option.some.inj hi
      obtain rfl : i = chain.length := by omega
      have hpos : chain.length ≠ 0 := fun hnil => hv.ne_nil (List.length_eq_zero_iff.mp hnil)
      rw [List.take_left]
      exact ⟨⟨cps, t, hc, fun _ => hzone⟩, fun hnil => absurd hnil hpos⟩

theorem mem_entriesOf_iff {te : TxEntry} :
    te ∈ entriesOf E chain ↔ ∃ (i : ℕ) (c : ChainBlock), chain[i]? = some c ∧ te ∈ c.entries E := by
  unfold entriesOf
  rw [List.mem_flatMap]
  constructor
  · rintro ⟨c, hc, hte⟩
    obtain ⟨i, hi⟩ := List.mem_iff_getElem?.mp hc
    exact ⟨i, c, hi, hte⟩
  · rintro ⟨i, c, hi, hte⟩
    exact ⟨c, List.mem_of_getElem? hi, hte⟩

theorem ValidNext.coinbase_isCoinbase {cps : Checkpoints} {t : ℕ} (h : ValidNext E cps t chain c) :
    isCoinbase c.bei.bl.minerTx = true := by
  obtain ⟨g, hg, -⟩ := vin_of_prevalidate h.header.miner
  exact isCoinbase_of_gen hg

theorem PrunedChain.listed (h : PrunedChain E top chain) {te : TxEntry} (hte : te ∈ entriesOf E chain)
    (hcoin : isCoinbase te.tx = false) : ∃ c, chain[te.height]? = some c ∧ te ∈ c.txs := by
  obtain ⟨i, c, hi, hmem⟩ := mem_entriesOf_iff.mp hte
  obtain ⟨⟨cps, t, hc, -⟩, -⟩ := h.valid hi
  rcases List.mem_cons.mp hmem with rfl | hmem
  · have hyes : isCoinbase (coinbaseEntry E c.bei).tx = true := hc.coinbase_isCoinbase
    rw [hcoin] at hyes
    cases hyes
  · have hlt := (List.getElem?_eq_some_iff.mp hi).1
    have hheight : te.height = i := by
      rw [hc.txs.height te hmem, List.length_take_of_le hlt.le]
    exact ⟨c, hheight.symm ▸ hi, hmem⟩

theorem PrunedChain.of_listed (h : PrunedChain E top chain) {i : ℕ} (hi : chain[i]? = some c)
    {te : TxEntry} (hte : te ∈ c.txs) : te ∈ entriesOf E chain ∧ te.height = i ∧
      isCoinbase te.tx = false ∧ prunedTx top i te.tx = te.tx := by
  obtain ⟨⟨cps, t, hc, hzone⟩, hgenesis⟩ := h.valid hi
  have hlt := (List.getElem?_eq_some_iff.mp hi).1
  have hheight : te.height = i := by
    rw [hc.txs.height te hte, List.length_take_of_le hlt.le]
  have hcoin := hc.txs.not_coinbase te hte
  refine ⟨mem_entriesOf_iff.mpr ⟨i, c, hi, List.mem_cons_of_mem _ hte⟩, hheight, hcoin, ?_⟩
  have hne : i ≠ 0 := by
    intro hzero
    rw [hgenesis hzero] at hte
    cases hte
  have hcut := hc.txs.cutIn te hte
  rw [List.length_take_of_le hlt.le, hzone hne] at hcut
  unfold prunedTx
  rw [hcoin]
  exact hcut

theorem entriesOf_prunedChain (h : PrunedChain E top chain) (top' : ℕ) :
    entriesOf E (prunedChain top' chain) = (entriesOf E chain).map (TxEntry.pruned top') := by
  have hblock : ∀ c ∈ chain, (c.pruned top').entries E = (c.entries E).map (TxEntry.pruned top') := by
    intro c hc
    obtain ⟨i, hi⟩ := List.mem_iff_getElem?.mp hc
    obtain ⟨⟨cps, t, hv, -⟩, -⟩ := h.valid hi
    have hcoin : (coinbaseEntry E c.bei).pruned top' = coinbaseEntry E c.bei := by
      unfold TxEntry.pruned prunedTx coinbaseEntry coinbaseOf
      rw [if_pos hv.coinbase_isCoinbase]
    unfold ChainBlock.entries ChainBlock.pruned
    rw [List.map_cons, hcoin]
  unfold entriesOf prunedChain
  rw [List.flatMap_map, List.map_flatMap]
  exact List.flatMap_congr hblock

theorem PrunedChain.linked (h : PrunedChain E top chain) : Linked E (entriesOf E chain) := by
  induction h with
  | genesis hc => exact hc.linked .nil
  | snoc _ hc _ ih => exact hc.linked ih

/-- Checkpoints that reach further up only cut signatures off. -/
theorem PrunedChain.pruned {top' : ℕ} (hle : top ≤ top') (h : PrunedChain E top chain) :
    PrunedChain E top' (prunedChain top' chain) := by
  induction h with
  | @genesis t c hc htxs =>
    have hsame : c.pruned top' = c := by
      obtain ⟨bei, txs⟩ := c
      obtain rfl : txs = [] := htxs
      rfl
    unfold prunedChain
    rw [List.map_singleton, hsame]
    exact .genesis hc htxs
  | @snoc t cps chain c hv hc hzone ih =>
    have hwider : cps.isInCheckpointZone chain.length = true → decide (chain.length ≤ top') = true := by
      rw [hzone, decide_eq_true_eq, decide_eq_true_eq]
      exact fun h => h.trans hle
    have hbare : (entriesOf E chain).map TxEntry.bare =
        (entriesOf E (prunedChain top' chain)).map TxEntry.bare := by
      rw [entriesOf_prunedChain hv, bare_map_pruned]
    obtain ⟨cps', hzone', hcut⟩ := hc.cut (blocksOf_prunedChain top' chain) hv.linked ih.linked hbare
      hwider
    have hblock : c.pruned top' = { c with txs := c.txs.map (TxEntry.cut (decide (chain.length ≤ top'))) } := by
      unfold ChainBlock.pruned
      congr 1
      refine List.map_congr_left fun te hte => ?_
      unfold TxEntry.pruned TxEntry.cut prunedTx
      rw [if_neg (by rw [hc.txs.not_coinbase te hte]; decide), hc.txs.height te hte]
    have hlast : prunedChain top' (chain ++ [c]) = prunedChain top' chain ++ [c.pruned top'] :=
      List.map_append
    rw [hlast, hblock]
    refine .snoc ih hcut ?_
    rw [prunedChain_length]
    exact hzone'

end Chain

def TransactionChainEntry.pruned (top : ℕ) (e : TransactionChainEntry) : TransactionChainEntry :=
  { e with tx := prunedTx top e.keeperBlockHeight e.tx }

/-- The entry without its signatures. -/
def TransactionChainEntry.cleared (e : TransactionChainEntry) : TransactionChainEntry :=
  { e with tx := cutSignatures e.tx }

/-- The ids that the block at a height lists. -/
def hashesAt (blocks : List BlockExtendedInfo) (height : ℕ) : List Hash :=
  (blocks[height]?.map fun bei => bei.bl.txHashes).getD []

/-- The index of a chain with its signatures cut off is the index of the chain with them cut off there. -/
theorem get_indexOf_pruned (F : Flags) (top : ℕ) (l : List TxEntry) (id : Hash) :
    (indexOf F (l.map (TxEntry.pruned top))).transactions.get id =
      ((indexOf F l).transactions.get id).map (TransactionChainEntry.pruned top) := by
  induction l using List.reverseRecOn with
  | nil => rfl
  | append_singleton l te ih =>
    have houtputs : (indexOf F (l.map (TxEntry.pruned top))).outputs = (indexOf F l).outputs := by
      rw [outputs_indexOf, outputs_indexOf, ← outputsOf_bare, bare_map_pruned, outputsOf_bare]
    have hvout : (te.pruned top).tx.vout = te.tx.vout :=
      congrArg TransactionPrefix.vout (toTransactionPrefix_prunedTx top te.height te.tx)
    rw [List.map_append, List.map_singleton, indexOf_append, indexOf_append]
    generalize indexOf F (l.map (TxEntry.pruned top)) = s at ih houtputs
    generalize indexOf F l = s' at ih houtputs
    unfold TxIndex.append pushTransactionToGlobalOutsIndex flagsOf
    rw [houtputs, hvout]
    change (s.transactions.set te.id _).get id = ((s'.transactions.set te.id _).get id).map _
    rw [Map.get_set, Map.get_set]
    split_ifs
    · rfl
    · exact ih

/-- The transactions of one block lose their signatures, and nothing else changes. -/
theorem pruneTransactions_spec {height : ℕ} {ids : List Hash} {s : TxIndex}
    (h : ∀ id ∈ ids, ∃ e, s.transactions.get id = some e ∧ e.keeperBlockHeight = height) :
    (pruneTransactions height ids s).1 = true ∧
      (pruneTransactions height ids s).2.outputs = s.outputs ∧
      (pruneTransactions height ids s).2.spentKeys = s.spentKeys ∧
      ∀ id, (pruneTransactions height ids s).2.transactions.get id =
        (s.transactions.get id).map fun e => if id ∈ ids then e.cleared else e := by
  induction ids generalizing s with
  | nil => exact ⟨rfl, rfl, rfl, fun id => by simp [pruneTransactions]⟩
  | cons id l ih =>
    obtain ⟨e, he, hheight⟩ := h id List.mem_cons_self
    let s' : TxIndex := { s with transactions := s.transactions.set id e.cleared }
    have hstep : pruneTransactions height (id :: l) s = pruneTransactions height l s' := by
      rw [pruneTransactions, he]
      dsimp only
      rw [if_pos hheight]
      rfl
    have hrest : ∀ id' ∈ l, ∃ e', s'.transactions.get id' = some e' ∧ e'.keeperBlockHeight = height := by
      intro id' hid'
      change ∃ e', (s.transactions.set id e.cleared).get id' = some e' ∧ _
      rw [Map.get_set]
      split_ifs
      · exact ⟨_, rfl, hheight⟩
      · exact h id' (List.mem_cons_of_mem _ hid')
    obtain ⟨hok, ho, hk, hget⟩ := ih hrest
    rw [hstep]
    refine ⟨hok, ho, hk, fun id' => ?_⟩
    rw [hget]
    change ((s.transactions.set id e.cleared).get id').map _ = _
    rw [Map.get_set]
    by_cases hsame : id' = id
    · subst hsame
      simp [he, TransactionChainEntry.cleared, cutSignatures]
    · simp [hsame, List.mem_cons]

theorem pruneHeights_spec {blocks : List BlockExtendedInfo} {heights : List ℕ} {s : TxIndex}
    (h : ∀ height ∈ heights, height < blocks.length ∧ ∀ id ∈ hashesAt blocks height,
      ∃ e, s.transactions.get id = some e ∧ e.keeperBlockHeight = height) :
    (pruneHeights blocks heights s).1 = true ∧
      (pruneHeights blocks heights s).2.outputs = s.outputs ∧
      (pruneHeights blocks heights s).2.spentKeys = s.spentKeys ∧
      ∀ id, (pruneHeights blocks heights s).2.transactions.get id =
        (s.transactions.get id).map fun e =>
          if ∃ height ∈ heights, id ∈ hashesAt blocks height then e.cleared else e := by
  induction heights generalizing s with
  | nil => exact ⟨rfl, rfl, rfl, fun id => by simp [pruneHeights]⟩
  | cons height l ih =>
    obtain ⟨hlt, hids⟩ := h height List.mem_cons_self
    have hat : hashesAt blocks height = blocks[height].bl.txHashes := by
      unfold hashesAt
      rw [List.getElem?_eq_getElem hlt]
      rfl
    have hblock : pruneRingSignatures blocks s height =
        pruneTransactions height (hashesAt blocks height) s := by
      unfold pruneRingSignatures
      rw [List.getElem?_eq_getElem hlt, hat]
    obtain ⟨hok, ho, hk, hget⟩ := pruneTransactions_spec hids
    rw [← hblock] at hok ho hk hget
    have hstep : pruneHeights blocks (height :: l) s =
        pruneHeights blocks l (pruneRingSignatures blocks s height).2 := by
      rw [pruneHeights, if_pos hok]
    have hrest : ∀ height' ∈ l, height' < blocks.length ∧ ∀ id ∈ hashesAt blocks height',
        ∃ e, (pruneRingSignatures blocks s height).2.transactions.get id = some e ∧
          e.keeperBlockHeight = height' := by
      intro height' hheight'
      obtain ⟨hlt', hids'⟩ := h height' (List.mem_cons_of_mem _ hheight')
      refine ⟨hlt', fun id hid => ?_⟩
      obtain ⟨e, he, hkeeper⟩ := hids' id hid
      rw [hget, he]
      refine ⟨_, rfl, ?_⟩
      split_ifs
      · exact hkeeper
      · exact hkeeper
    obtain ⟨hok', ho', hk', hget'⟩ := ih hrest
    rw [hstep]
    refine ⟨hok', ho'.trans ho, hk'.trans hk, fun id => ?_⟩
    rw [hget', hget, Option.map_map]
    congr 1
    funext e
    by_cases hmem : id ∈ hashesAt blocks height
    · simp [hmem, TransactionChainEntry.cleared, cutSignatures]
    · simp [hmem]

section Set

variable {E : Env} {F : Flags} {top : ℕ} {chain : List ChainBlock}

theorem PrunedChain.mem_hashesAt (h : PrunedChain E top chain) {height : ℕ} {id : Hash} :
    id ∈ hashesAt (blocksOf chain) height ↔
      ∃ c, chain[height]? = some c ∧ ∃ te ∈ c.txs, te.id = id := by
  unfold hashesAt blocksOf
  rw [List.getElem?_map, Option.map_map]
  cases hc : chain[height]? with
  | none => simp
  | some c =>
    obtain ⟨⟨cps, t, hv, -⟩, -⟩ := h.valid hc
    change id ∈ c.bei.bl.txHashes ↔ _
    rw [← hv.txIds, List.mem_map]
    exact ⟨fun hte => ⟨c, rfl, hte⟩, fun ⟨c', hc', hte⟩ => Option.some.inj hc' ▸ hte⟩

/-- A stored transaction is a coinbase, which no block lists, or is listed by the block at its height
and has no signatures if that is in the zone. -/
theorem PrunedChain.stored (h : PrunedChain E top chain) {id : Hash} {e : TransactionChainEntry}
    (he : (indexOf F (entriesOf E chain)).transactions.get id = some e) :
    (isCoinbase e.tx = true ∧ ∀ height, id ∉ hashesAt (blocksOf chain) height) ∨
      (isCoinbase e.tx = false ∧ e.keeperBlockHeight ≠ 0 ∧
        (∀ height, id ∈ hashesAt (blocksOf chain) height ↔ height = e.keeperBlockHeight) ∧
        prunedTx top e.keeperBlockHeight e.tx = e.tx) := by
  have hnodup := h.linked.nodup_ids
  have hmem : id ∈ (entriesOf E chain).map TxEntry.id := by
    by_contra hid
    rw [transactions_indexOf_none F hid] at he
    cases he
  obtain ⟨te, hte, rfl⟩ := List.mem_map.mp hmem
  obtain ⟨e', he', htx, hkeeper, -⟩ := transactions_indexOf_mem F hnodup hte
  obtain rfl : e' = e := Option.some.inj (he'.symm.trans he)
  rw [htx, hkeeper]
  have hlists : ∀ height, te.id ∈ hashesAt (blocksOf chain) height →
      te.height = height ∧ isCoinbase te.tx = false := by
    intro height hid
    obtain ⟨c, hc, te', hte', hsame⟩ := h.mem_hashesAt.mp hid
    obtain ⟨hmem', hheight, hcoin, -⟩ := h.of_listed hc hte'
    obtain rfl : te' = te := List.inj_on_of_nodup_map hnodup hmem' hte hsame
    exact ⟨hheight, hcoin⟩
  cases hcoin : isCoinbase te.tx with
  | true =>
    refine Or.inl ⟨rfl, fun height hid => ?_⟩
    have hnot := (hlists height hid).2
    rw [hcoin] at hnot
    cases hnot
  | false =>
    obtain ⟨c, hc, hlisted⟩ := h.listed hte hcoin
    obtain ⟨-, -, -, hpruned⟩ := h.of_listed hc hlisted
    refine Or.inr ⟨rfl, fun hzero => ?_, fun height => ⟨fun hid => (hlists height hid).1.symm, ?_⟩,
      hpruned⟩
    · rw [hzero] at hc
      rw [(h.valid hc).2 rfl] at hlisted
      cases hlisted
    · rintro rfl
      exact h.mem_hashesAt.mpr ⟨c, hc, te, hlisted, rfl⟩

theorem cutIn_true_pruned {height : ℕ} {tx : Transaction} (hcoin : isCoinbase tx = false)
    (hle : height ≤ top) : prunedTx top height tx = cutSignatures tx := by
  unfold prunedTx cutIn
  rw [if_neg (by rw [hcoin]; decide), decide_eq_true hle, if_pos rfl]

theorem prunedTx_above {height : ℕ} {tx : Transaction} (hlt : top < height) :
    prunedTx top height tx = tx := by
  simp [prunedTx, cutIn, Nat.not_le.mpr hlt]

/-- The stores of a chain stay those of a chain when its signatures are cut off in them. -/
theorem Rep.pruned {s : ChainStores} {index : TxIndex} {top' : ℕ} (h : PrunedChain E top chain)
    (hrep : Rep E F chain s) (houtputs : index.outputs = s.txs.index.outputs)
    (hkeys : index.spentKeys = s.txs.index.spentKeys)
    (hget : ∀ id, index.transactions.get id =
      (s.txs.index.transactions.get id).map (TransactionChainEntry.pruned top'))
    (hle : top ≤ top') :
    Rep E F (prunedChain top' chain) { s with txs := { s.txs with index } } := by
  have hbare := bare_map_pruned top' (entriesOf E chain)
  have hindex : index = indexOf F ((entriesOf E chain).map (TxEntry.pruned top')) := by
    obtain ⟨transactions, spentKeys, outputs⟩ := index
    dsimp only at houtputs hkeys hget
    have h1 : transactions = (indexOf F ((entriesOf E chain).map (TxEntry.pruned top'))).transactions :=
      Map.ext fun id => by rw [hget, get_indexOf_pruned, hrep.txs.index]
    have h2 : spentKeys = (indexOf F ((entriesOf E chain).map (TxEntry.pruned top'))).spentKeys := by
      rw [hkeys, hrep.txs.index]
      exact Map.ext fun k => by
        rw [spentKeys_indexOf, spentKeys_indexOf, ← kimagesOf_bare (l := (entriesOf E chain).map _),
          hbare, kimagesOf_bare]
    have h3 : outputs = (indexOf F ((entriesOf E chain).map (TxEntry.pruned top'))).outputs := by
      rw [houtputs, hrep.txs.index, outputs_indexOf, outputs_indexOf,
        ← outputsOf_bare ((entriesOf E chain).map _), hbare, outputsOf_bare]
    rw [h1, h2, h3]
  refine ⟨?_, ?_, ?_, ?_⟩
  · rw [blocksOf_prunedChain]
    exact hrep.blocks
  · rw [blocksOf_prunedChain]
    exact hrep.blocksIndex
  · have hlinked := (h.pruned hle).linked
    rw [entriesOf_prunedChain h] at hlinked ⊢
    refine ⟨hindex, ⟨hrep.txs.aliases.addrOK, fun name => ?_⟩, hrep.txs.pool, ?_, hlinked⟩
    · rw [← historyOf_bare, hbare, historyOf_bare]
      exact hrep.txs.aliases.history name
    · intro te hte hcoin
      obtain ⟨te₀, hte₀, rfl⟩ := List.mem_map.mp hte
      refine hrep.txs.disjoint te₀ hte₀ ?_
      rw [← hcoin]
      unfold isCoinbase TxEntry.pruned
      rw [toTransactionPrefix_prunedTx]
  · rw [blocksOf_prunedChain]
    exact hrep.scratchpad

/-- Setting checkpoints that reach at least as far leaves the chain without its signatures there. -/
theorem setCheckpoints_pruned {n : Node} {cps : Checkpoints} (h : PrunedChain E top chain)
    (hrep : Rep E F chain n.toChainStores) (hcounter : n.currentPrunedRsHeight ≤ top)
    (hle : top ≤ cps.getTopCheckpointHeight) :
    Rep E F (prunedChain cps.getTopCheckpointHeight chain) (setCheckpoints n cps).toChainStores ∧
      (setCheckpoints n cps).checkpoints = cps ∧
      (setCheckpoints n cps).currentPrunedRsHeight ≤ cps.getTopCheckpointHeight := by
  generalize htop' : cps.getTopCheckpointHeight = top' at hle ⊢
  have hne : n.blocks ≠ [] := by
    rw [hrep.blocks]
    exact fun hnil => h.ne_nil (List.map_eq_nil_iff.mp hnil)
  unfold setCheckpoints pruneRingSignaturesIfNeed
  dsimp only
  rw [htop']
  -- the source prunes only the heights from its counter up to the new top
  by_cases hneed : n.blocks ≠ [] ∧ top' ≠ 0 ∧ n.currentPrunedRsHeight < top'
  · rw [if_pos hneed]
    generalize hheights : (List.range (min n.blocks.length (top' + 1))).drop n.currentPrunedRsHeight =
      heights
    have hmem : ∀ height, height ∈ heights ↔
        n.currentPrunedRsHeight ≤ height ∧ height < n.blocks.length ∧ height ≤ top' := by
      intro height
      rw [← hheights, List.range_eq_range', List.drop_range', List.mem_range'_1]
      omega
    have hfound : ∀ height ∈ heights, height < n.blocks.length ∧
        ∀ id ∈ hashesAt n.blocks height, ∃ e, n.txs.index.transactions.get id = some e ∧
          e.keeperBlockHeight = height := by
      intro height hheight
      refine ⟨((hmem height).mp hheight).2.1, fun id hid => ?_⟩
      rw [hrep.blocks] at hid
      obtain ⟨c, hc, te, hte, rfl⟩ := h.mem_hashesAt.mp hid
      obtain ⟨hin, hat, -, -⟩ := h.of_listed hc hte
      obtain ⟨e, he, -, hkeeper, -⟩ := transactions_indexOf_mem F h.linked.nodup_ids hin
      rw [hrep.txs.index]
      exact ⟨e, he, hkeeper.trans hat⟩
    obtain ⟨hok, houtputs, hkeys, hget⟩ := pruneHeights_spec hfound
    rw [if_pos hok]
    refine ⟨hrep.pruned h houtputs hkeys (fun id => ?_) hle, rfl, le_rfl⟩
    rw [hget]
    cases he : n.txs.index.transactions.get id with
    | none => rfl
    | some e =>
      rw [hrep.txs.index] at he
      rw [Option.map_some, Option.map_some, hrep.blocks]
      congr 1
      unfold TransactionChainEntry.pruned
      rcases h.stored he with ⟨hcoin, hnone⟩ | ⟨hcoin, -, hat, hpruned⟩
      · have hnot : ¬∃ height ∈ heights, id ∈ hashesAt (blocksOf chain) height :=
          fun ⟨height, _, hid⟩ => hnone height hid
        rw [if_neg hnot, prunedTx, if_pos hcoin]
      · have hlt : e.keeperBlockHeight < n.blocks.length := by
          obtain ⟨c, hc, -⟩ := h.mem_hashesAt.mp ((hat _).mpr rfl)
          rw [hrep.blocks, blocksOf_length]
          exact (List.getElem?_eq_some_iff.mp hc).1
        -- a transaction is met in the loop exactly when its height lies between counter and top
        have hiff : (∃ height ∈ heights, id ∈ hashesAt (blocksOf chain) height) ↔
            n.currentPrunedRsHeight ≤ e.keeperBlockHeight ∧ e.keeperBlockHeight ≤ top' := by
          constructor
          · rintro ⟨height, hheight, hid⟩
            obtain rfl := (hat height).mp hid
            exact ⟨((hmem _).mp hheight).1, ((hmem _).mp hheight).2.2⟩
          · rintro ⟨hfrom, hto⟩
            exact ⟨_, (hmem _).mpr ⟨hfrom, hlt, hto⟩, (hat _).mpr rfl⟩
        rw [if_congr hiff rfl rfl]
        split_ifs with hcovered
        · rw [cutIn_true_pruned hcoin hcovered.2]
          rfl
        · rcases Nat.lt_or_ge top' e.keeperBlockHeight with habove | hbelow
          · rw [prunedTx_above habove]
          · -- below the counter it was cut off before
            have hcut : e.keeperBlockHeight ≤ top := by
              have hbefore : e.keeperBlockHeight < n.currentPrunedRsHeight := by
                by_contra hge
                exact hcovered ⟨by omega, hbelow⟩
              omega
            rw [cutIn_true_pruned hcoin hcut] at hpruned
            rw [cutIn_true_pruned hcoin hbelow, hpruned]
  · rw [if_neg hneed]
    refine ⟨hrep.pruned h rfl rfl (fun id => ?_) hle, rfl, hcounter.trans hle⟩
    cases he : n.txs.index.transactions.get id with
    | none => rfl
    | some e =>
      rw [hrep.txs.index] at he
      rw [Option.map_some]
      congr 1
      unfold TransactionChainEntry.pruned
      rcases h.stored he with ⟨hcoin, -⟩ | ⟨hcoin, hpos, -, hpruned⟩
      · rw [prunedTx, if_pos hcoin]
      · -- nothing new lies in the zone
        have hsame : top' = top ∨ top' = 0 := by
          by_contra hnot
          exact hneed ⟨hne, by omega, by omega⟩
        rcases hsame with rfl | rfl
        · rw [hpruned]
        · rw [prunedTx_above (by omega)]

end Set

section Counter

variable (E : Env) (now : ℕ) (bvc : BlockVerificationContext) (n : Node) (bl : Block)

theorem checkBlockTimestamp_counter (timestamps : List UInt64) :
    (checkBlockTimestamp E n timestamps bl).2.currentPrunedRsHeight = n.currentPrunedRsHeight := by
  unfold checkBlockTimestamp
  split_ifs <;> rfl

theorem addBlockAsInvalid_counter (bei : BlockExtendedInfo) (id : Hash) :
    (addBlockAsInvalid n bei id).currentPrunedRsHeight = n.currentPrunedRsHeight := by
  unfold addBlockAsInvalid
  split <;> rfl

theorem finishBlock_counter (diff : WideDifficulty) (st : TxLoop) :
    (finishBlock E now bvc n bl diff st).2.2.currentPrunedRsHeight = n.currentPrunedRsHeight := by
  unfold finishBlock
  dsimp only
  split
  · rfl
  · split <;> rfl

theorem addBlockTransactions_counter (diff : WideDifficulty) :
    (addBlockTransactions E now bvc n bl diff).2.2.currentPrunedRsHeight =
      n.currentPrunedRsHeight := by
  unfold addBlockTransactions
  dsimp only
  split
  · rfl
  · split
    · split_ifs
      · exact addBlockAsInvalid_counter _ _ _
      · rfl
    · exact finishBlock_counter E now bvc n bl diff _

theorem handleBlockToMainChain_counter :
    (handleBlockToMainChain E now bvc n bl).2.2.currentPrunedRsHeight = n.currentPrunedRsHeight := by
  have hts : (checkBlockTimestampMain E now n bl).2.currentPrunedRsHeight = n.currentPrunedRsHeight := by
    unfold checkBlockTimestampMain
    split_ifs
    · rfl
    · exact checkBlockTimestamp_counter E n bl _
  unfold handleBlockToMainChain
  dsimp only
  split_ifs
  · rfl
  · exact hts
  · exact hts
  · exact hts
  · exact hts
  · exact hts
  · exact (addBlockTransactions_counter E now bvc _ bl _).trans hts

theorem popBlockFromBlockchain_counter :
    (popBlockFromBlockchain E now n).2.currentPrunedRsHeight = n.currentPrunedRsHeight := by
  unfold popBlockFromBlockchain
  split_ifs
  · rfl
  · dsimp only
    split
    · rfl
    · split_ifs <;> rfl

theorem addAlternativeBlock_counter (a : Attachment) :
    match addAlternativeBlock E bvc n bl a with
    | .error r => r.2.2.currentPrunedRsHeight = n.currentPrunedRsHeight
    | .ok r => r.2.currentPrunedRsHeight = n.currentPrunedRsHeight := by
  have hts := checkBlockTimestamp_counter E n bl
    (altTimestamps n.blocks (a.connectionHeight - 1) a.branch)
  unfold addAlternativeBlock
  generalize checkBlockTimestamp E n (altTimestamps n.blocks (a.connectionHeight - 1) a.branch) bl = q
    at hts
  obtain ⟨ok, n₁⟩ := q
  cases ok with
  | false => exact hts
  | true =>
    simp only [Bool.not_true, Bool.false_eq_true, if_false]
    cases altProofOfWork E n₁ bl a with
    | none => exact hts
    | some q =>
      dsimp only
      split_ifs
      · exact hts
      · exact hts
      · exact hts
      · cases n₁.alternativeChains.get (getBlockHash E bl) with
        | some _ => exact hts
        | none => exact hts

theorem counter_altInvariant (k : ℕ) : AltInvariant E now (fun n => n.currentPrunedRsHeight = k)
    (fun _ => True) (fun _ => True) fun _ => True where
  push n bvc bl hn _ := (handleBlockToMainChain_counter E now bvc n bl).trans hn
  pop n _ hn _ _ := (popBlockFromBlockchain_counter E now n).trans hn
  invalid n bei id hn := (addBlockAsInvalid_counter n bei id).trans hn
  erase _ _ hn := hn
  add bvc n b a hn _ _ _ _ := by
    have hadd := addAlternativeBlock_counter E bvc n b a
    cases hr : addAlternativeBlock E bvc n b a with
    | error r =>
      rw [hr] at hadd
      exact hadd.trans hn
    | ok r =>
      rw [hr] at hadd
      exact ⟨hadd.trans hn, fun _ _ => trivial⟩
  main _ _ _ _ _ _ _ _ := ⟨trivial, trivial⟩
  alt _ _ _ _ _ := trivial

end Counter

theorem isInCheckpointZone_of_ne_zero {cps : Checkpoints} {h : ℕ} (hpos : h ≠ 0) :
    cps.isInCheckpointZone h = decide (h ≤ cps.getTopCheckpointHeight) := by
  rw [Bool.eq_iff_iff, isInCheckpointZone_iff, decide_eq_true_eq]
  refine ⟨fun h => h.2, fun hle => ⟨fun hempty => hpos ?_, hle⟩⟩
  unfold Checkpoints.getTopCheckpointHeight at hle
  rw [hempty, Finset.sup_empty] at hle
  exact Nat.le_zero.mp hle

/-- The stores are those of a chain with its transactions as they are stored under `cps`. -/
def PrunedStores (E : Env) (cps : Checkpoints) (n : Node) : Prop :=
  n.checkpoints = cps ∧ ∃ F chain, PrunedChain E cps.getTopCheckpointHeight chain ∧
    Rep E F chain n.toChainStores

theorem prunedStores_store (E : Env) (cps : Checkpoints) (now : ℕ) :
    StoreInvariant E now (PrunedStores E cps) where
  push := by
    rintro n bvc bl ⟨hcps, F, chain, hv, hrep⟩
    rcases handleBlockToMainChain_spec now bl bvc hrep with ⟨-, -, c, -, hp⟩ | ⟨-, -, hr⟩
    · have hvalid := hp.valid
      rw [hcps] at hvalid
      have hpos : chain.length ≠ 0 := fun hnil => hv.ne_nil (List.length_eq_zero_iff.mp hnil)
      exact ⟨hp.frame.checkpoints.trans hcps, _, _, hv.snoc hvalid (isInCheckpointZone_of_ne_zero hpos), hp.rep⟩
    · obtain ⟨R, es, hrep', -⟩ := hr.rep
      exact ⟨hr.frame.checkpoints.trans hcps, _, _, hv, hrep'⟩
  pop := by
    rintro n ⟨hcps, F, chain, hv, hrep⟩
    obtain ⟨chain', c, rfl⟩ := (List.eq_nil_or_concat' chain).resolve_left hv.ne_nil
    by_cases hne : chain' = []
    · have hlen : n.blocks.length ≤ 1 := by
        rw [hrep.blocks, blocksOf_length, hne]
        simp
      have hsame : popBlockFromBlockchain E now n = (false, n) := by
        simp [popBlockFromBlockchain, hlen]
      rw [hsame]
      exact ⟨hcps, F, _, hv, hrep⟩
    · obtain ⟨hv', cps', t, hc⟩ := hv.of_append_singleton hne
      by_cases hread : Readable E c.bei.bl
      · obtain ⟨n', hpop, hrep', -, hf⟩ := popBlockFromBlockchain_readable now hrep hc hne hread
        rw [hpop]
        exact ⟨hf.checkpoints.trans hcps, _, chain', hv', hrep'⟩
      · rw [popBlockFromBlockchain_unreadable now hrep hread]
        exact ⟨hcps, F, _, hv, hrep⟩
  frame := by
    rintro n n' hs hc ⟨hcps, F, chain, hv, hrep⟩
    refine ⟨hc.trans hcps, F, chain, hv, ?_⟩
    rw [hs]
    exact hrep

theorem prunedStores_event {E : Env} {cps : Checkpoints} {n n' : Node} {e : Event}
    (h : PrunedStores E cps n) (he : e.apply E n = some n') :
    PrunedStores E cps n' ∧ n'.currentPrunedRsHeight = n.currentPrunedRsHeight := by
  cases e with
  | block now fuel bl =>
    obtain ⟨r, hr, rfl⟩ := Option.map_eq_some_iff.mp he
    exact ⟨(prunedStores_store E cps now).addNewBlock h hr,
      (counter_altInvariant E now _).addNewBlock rfl (fun _ => trivial) (fun _ => trivial) hr⟩
  | transaction now tx kept =>
    obtain rfl := Option.some.inj he
    obtain ⟨hcps, F, chain, hv, hrep⟩ := h
    obtain ⟨hrep', hf, -⟩ := handleIncomingTx_spec now tx kept hrep
    refine ⟨⟨hf.checkpoints.trans hcps, F, chain, hv, hrep'⟩, ?_⟩
    unfold handleIncomingTx addNewTx
    split_ifs <;> rfl
  | removeStuck now order =>
    obtain rfl := Option.some.inj he
    obtain ⟨hcps, F, chain, hv, hrep⟩ := h
    exact ⟨⟨hcps, F, chain, hv, removeStuck_rep now order hrep⟩, rfl⟩
  | pruneAltBlocks =>
    obtain rfl := Option.some.inj he
    exact ⟨(prunedStores_store E cps 0).frame n _ rfl rfl h, rfl⟩

/-- The states of nodes whose checkpoints are set again and again, never to a lower last one. -/
inductive CheckpointRun (E : Env) : Node → Prop
  | init {now : ℕ} {cps : Checkpoints} {n : Node} : initNode E now cps = some n → CheckpointRun E n
  | event {n n' : Node} (e : Event) : CheckpointRun E n → e.apply E n = some n' → CheckpointRun E n'
  | set {n : Node} (cps : Checkpoints) : CheckpointRun E n →
      n.checkpoints.getTopCheckpointHeight ≤ cps.getTopCheckpointHeight →
      CheckpointRun E (setCheckpoints n cps)

theorem counter_initNode {E : Env} {now : ℕ} {cps : Checkpoints} {n : Node}
    (h : initNode E now cps = some n) : n.currentPrunedRsHeight ≤ cps.getTopCheckpointHeight := by
  unfold initNode at h
  cases hr : addNewBlock E now 1 {} Node.empty generateGenesisBlock with
  | none => simp [hr] at h
  | some r =>
    have hzero : r.2.2.currentPrunedRsHeight = 0 :=
      (counter_altInvariant E now 0).addNewBlock rfl (fun _ => trivial) (fun _ => trivial) hr
    obtain ⟨ok, bvc, n₁⟩ := r
    simp only [hr] at h
    split_ifs at h
    obtain rfl := Option.some.inj h
    have hzero : n₁.currentPrunedRsHeight = 0 := hzero
    unfold setCheckpoints pruneRingSignaturesIfNeed
    dsimp only
    split_ifs
    · exact le_rfl
    · exact hzero.trans_le (Nat.zero_le _)
    · exact hzero.trans_le (Nat.zero_le _)

theorem prunedStores_of_run {E : Env} {n : Node} (h : CheckpointRun E n) :
    PrunedStores E n.checkpoints n ∧
      n.currentPrunedRsHeight ≤ n.checkpoints.getTopCheckpointHeight := by
  induction h with
  | init hinit =>
    obtain ⟨c, hbl, hc, hcps, hrep, -⟩ := initNode_spec hinit
    have hnone : c.txs = [] := by
      have hids := hc.txIds
      rw [hbl] at hids
      exact List.map_eq_nil_iff.mp hids
    refine ⟨⟨rfl, _, _, .genesis hc hnone, hrep⟩, ?_⟩
    rw [hcps]
    exact counter_initNode hinit
  | event e _ he ih =>
    obtain ⟨hstores, hcounter⟩ := prunedStores_event ih.1 he
    rw [hstores.1, hcounter]
    exact ⟨hstores, ih.2⟩
  | set cps _ hle ih =>
    obtain ⟨⟨-, F, chain, hv, hrep⟩, hcounter⟩ := ih
    obtain ⟨hrep', hcps, hcounter'⟩ := setCheckpoints_pruned hv hrep hcounter hle
    rw [hcps]
    exact ⟨⟨hcps, F, _, hv.pruned hle, hrep'⟩, hcounter'⟩

/-- The signatures are as many as the inputs, each as long as the ring of its input. -/
def FullySigned (tx : Transaction) : Prop :=
  List.Forall₂ (fun inp sig => ∃ txin, inp = Txin.toKey txin ∧ sig.length = txin.keyOffsets.length)
    tx.vin tx.signatures

/-- Outside the zone the loop of `check_tx_inputs` wants one list of signatures for each input. -/
theorem checkTxInputsGo_full {E : Env} {s : TxIndex} {now height : ℕ} {ph : Hash} {vin : List Txin}
    {sigs : List (List Signature)} {m r : ℕ}
    (h : TxIndex.checkTxInputsGo E s now height false ph vin sigs m = some r) :
    List.Forall₂ (fun inp sig => ∃ txin, inp = Txin.toKey txin ∧ sig.length = txin.keyOffsets.length)
      vin sigs := by
  induction vin generalizing sigs m with
  | nil =>
    simp only [TxIndex.checkTxInputsGo, Bool.false_or] at h
    split_ifs at h with hs
    rw [List.isEmpty_iff.mp hs]
    exact .nil
  | cons i l ih =>
    cases i with
    | toKey txin =>
      obtain ⟨-, -, hne, m', hc, hgo⟩ := checkTxInputsGo_cons.mp h
      cases sigs with
      | nil => simp at hne
      | cons sig sigs =>
        refine .cons ⟨txin, rfl, ?_⟩ (ih hgo)
        simp only [Bool.false_eq_true, if_false, List.headD_cons, TxIndex.checkTxInput] at hc
        cases hscan : s.scanOutputkeysForIndexes now height txin with
        | none => simp [hscan] at hc
        | some q =>
          simp only [hscan] at hc
          split_ifs at hc with hring hsig
          simp only [Bool.and_eq_true, decide_eq_true_eq] at hsig
          exact hsig.1.2.trans (not_not.mp hring).symm
    | gen g => simp [TxIndex.checkTxInputsGo] at h
    | toScript a b c => simp [TxIndex.checkTxInputsGo] at h
    | toScripthash a b c d => simp [TxIndex.checkTxInputsGo] at h

theorem TxsOK.fullySigned {E : Env} {t h : ℕ} {l es : List TxEntry} (hok : TxsOK E t h false l es) :
    ∀ te ∈ es, FullySigned te.tx := by
  induction es generalizing l with
  | nil => simp
  | cons x es ih =>
    obtain ⟨-, -, -, -, hcheck, hrest⟩ := hok
    intro te hte
    rcases List.mem_cons.mp hte with rfl | hte
    · obtain ⟨r, hr⟩ := Option.isSome_iff_exists.mp hcheck
      exact checkTxInputsGo_full hr
    · exact ih hrest te hte

/-- Whatever checkpoints were set on the way, a transaction of a block up to the last checkpoint is
stored without signatures, and one of a block above it with all. -/
theorem signatures_of_run (E : Env) (n : Node) (h : CheckpointRun E n) (i : ℕ) (bei : BlockExtendedInfo)
    (hbei : n.blocks[i]? = some bei) (id : Hash) (hid : id ∈ bei.bl.txHashes) :
    ∃ e, n.txs.index.transactions.get id = some e ∧ e.keeperBlockHeight = i ∧
      (i ≤ n.checkpoints.getTopCheckpointHeight → e.tx.signatures = []) ∧
      (n.checkpoints.getTopCheckpointHeight < i → FullySigned e.tx) := by
  obtain ⟨⟨-, F, chain, hv, hrep⟩, -⟩ := prunedStores_of_run h
  have hat : id ∈ hashesAt (blocksOf chain) i := by
    unfold hashesAt
    rw [← hrep.blocks, hbei]
    exact hid
  obtain ⟨c, hc, te, hte, rfl⟩ := hv.mem_hashesAt.mp hat
  obtain ⟨hmem, hheight, hcoin, hpruned⟩ := hv.of_listed hc hte
  obtain ⟨e, he, htx, hkeeper, -⟩ := transactions_indexOf_mem F hv.linked.nodup_ids hmem
  rw [hrep.txs.index]
  refine ⟨e, he, hkeeper.trans hheight, fun hbelow => ?_, fun habove => ?_⟩
  · rw [cutIn_true_pruned hcoin hbelow] at hpruned
    rw [htx, ← hpruned]
    rfl
  · obtain ⟨⟨cps, t, hc', hzone⟩, -⟩ := hv.valid hc
    have htxs := hc'.txs
    rw [List.length_take_of_le (List.getElem?_eq_some_iff.mp hc).1.le, hzone (by omega),
      decide_eq_false (by omega)] at htxs
    rw [htx]
    exact htxs.fullySigned te hte

theorem CheckpointRun.of_reachable {E : Env} {cps : Checkpoints} {n : Node} (h : Reachable E cps n) :
    CheckpointRun E n := by
  obtain ⟨now, n₀, events, hinit, hrun⟩ := h
  exact run_induction (Q := fun _ => True) (fun _ _ e hn _ he => .event e hn he) (.init hinit)
    (fun _ _ => trivial) hrun

/-- A signature that is stored above the checkpoints is cleared when they are set above it. -/
theorem signatures_sample : ∃ n, CheckpointRun sampleEnv n ∧
    n.checkpoints.getTopCheckpointHeight < 11 ∧
    11 ≤ (setCheckpoints n sampleCheckpoints).checkpoints.getTopCheckpointHeight ∧
    (∃ e, n.txs.index.transactions.get (getTransactionHash sampleEnv signedSpend) = some e ∧
      FullySigned e.tx) ∧
    ∃ e, (setCheckpoints n sampleCheckpoints).txs.index.transactions.get
      (getTransactionHash sampleEnv signedSpend) = some e ∧ e.tx.signatures = [] := by
  let id := getTransactionHash sampleEnv signedSpend
  have hdec : ((sampleNode ∅ 10).bind (spend signedSpend 0)).map (fun n =>
      let n' := setCheckpoints n sampleCheckpoints
      (n.blocks[11]?.any fun bei => decide (id ∈ bei.bl.txHashes)) &&
      (n'.blocks[11]?.any fun bei => decide (id ∈ bei.bl.txHashes)) &&
      decide (n.checkpoints.getTopCheckpointHeight < 11) &&
      decide (11 ≤ n'.checkpoints.getTopCheckpointHeight)) = some true := by decide +kernel
  obtain ⟨n, hn, hview⟩ := Option.map_eq_some_iff.mp hdec
  simp only [Bool.and_eq_true, decide_eq_true_eq] at hview
  obtain ⟨⟨⟨hbei, hbei'⟩, habove⟩, hbelow⟩ := hview
  obtain ⟨n₁, hn₁, hspend⟩ := Option.bind_eq_some_iff.mp hn
  have hrun : CheckpointRun sampleEnv n := .of_reachable ((reachable_sampleNode hn₁).run hspend)
  obtain ⟨bei, hat, hid⟩ := (Option.any_eq_true _ _).mp hbei
  obtain ⟨bei', hat', hid'⟩ := (Option.any_eq_true _ _).mp hbei'
  obtain ⟨e, he, -, -, hfull⟩ :=
    signatures_of_run sampleEnv n hrun 11 bei hat id (of_decide_eq_true hid)
  have hset : CheckpointRun sampleEnv (setCheckpoints n sampleCheckpoints) := by
    refine .set sampleCheckpoints hrun ?_
    have htop : sampleCheckpoints.getTopCheckpointHeight = 100 := by decide
    omega
  obtain ⟨e', he', -, hnone, -⟩ :=
    signatures_of_run sampleEnv _ hset 11 bei' hat' id (of_decide_eq_true hid')
  exact ⟨n, hrun, habove, hbelow, ⟨e, he, hfull habove⟩, e', he', hnone hbelow⟩

end Boolberry
