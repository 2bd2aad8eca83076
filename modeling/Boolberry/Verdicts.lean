import Boolberry.Branches
import Boolberry.RefusedBlocks
import Boolberry.Sides

/-!
# The verdict on a block and what the node saw before

A block takes its transactions from the pool by their ids, and an id does not
cover the signatures. Two nodes with the same chain give a block the same verdict
when their pools hold the same transactions under its ids, whatever else they hold.
-/

namespace Boolberry
open KeyValue TxMemoryPool

/-- A transaction of the chain without its signatures. -/
def TxEntry.bare (te : TxEntry) : TxEntry := { te with tx := { te.tx with signatures := [] } }

section Bare

variable {E : Env} {l l' : List TxEntry}

theorem outputsOf_bare (l : List TxEntry) : outputsOf (l.map TxEntry.bare) = outputsOf l := by
  funext a
  simp [outputsOf, List.flatMap_map, TxEntry.bare]

theorem kimagesOf_bare (l : List TxEntry) : kimagesOf (l.map TxEntry.bare) = kimagesOf l := by
  rw [kimagesOf, kimagesOf, List.flatMap_map]
  rfl

theorem historyOf_bare (E : Env) (l : List TxEntry) (name : Blob) :
    historyOf E (l.map TxEntry.bare) name = historyOf E l name := by
  rw [historyOf, historyOf, List.filterMap_map]
  rfl

theorem ids_bare (l : List TxEntry) : (l.map TxEntry.bare).map TxEntry.id = l.map TxEntry.id := by
  rw [List.map_map]
  rfl

/-- Whether a transaction can follow does not depend on the signatures before it. -/
theorem Addable.congr {te : TxEntry} (h : l.map TxEntry.bare = l'.map TxEntry.bare)
    (ha : Addable E l te) : Addable E l' te := by
  have ho : outputsOf l = outputsOf l' := by rw [← outputsOf_bare, h, outputsOf_bare]
  have hk : kimagesOf l = kimagesOf l' := by rw [← kimagesOf_bare, h, kimagesOf_bare]
  have hi : l.map TxEntry.id = l'.map TxEntry.id := by rw [← ids_bare, h, ids_bare]
  have hh : ∀ name, historyOf E l name = historyOf E l' name := fun name => by
    rw [← historyOf_bare, h, historyOf_bare]
  refine ⟨⟨?_, ha.nodup, ?_⟩, ha.hash, ?_, ⟨ha.extra.1, fun ai hai => ?_⟩, ha.semantic⟩
  · rw [← ho]
    exact ha.resolves
  · rw [← hk]
    exact ha.fresh
  · rw [← hi]
    exact ha.id_notMem
  · rw [← hh]
    exact ha.extra.2 ai hai

theorem sameTxs_of_bare (hl : Linked E l) (hl' : Linked E l')
    (h : l.map TxEntry.bare = l'.map TxEntry.bare) (F F' : Flags) :
    SameTxs (indexOf F l) (indexOf F' l') := by
  refine ⟨?_, Map.ext fun k => ?_, fun id => ?_⟩
  · rw [outputs_indexOf, outputs_indexOf, ← outputsOf_bare, h, outputsOf_bare]
  · rw [spentKeys_indexOf, spentKeys_indexOf, ← kimagesOf_bare, h, kimagesOf_bare]
  · have hi : l.map TxEntry.id = l'.map TxEntry.id := by rw [← ids_bare, h, ids_bare]
    by_cases hid : id ∈ l.map TxEntry.id
    · obtain ⟨te, hte, rfl⟩ := List.mem_map.mp hid
      obtain ⟨te', hte', hbare⟩ := List.mem_map.mp (h ▸ List.mem_map_of_mem hte)
      have hidte : te'.id = te.id := show te'.bare.id = te.bare.id by rw [hbare]
      have htx : te'.tx.toTransactionPrefix = te.tx.toTransactionPrefix :=
        show te'.bare.tx.toTransactionPrefix = te.bare.tx.toTransactionPrefix by rw [hbare]
      have hheight : te'.height = te.height := show te'.bare.height = te.bare.height by rw [hbare]
      obtain ⟨e, he, h1, h2, -⟩ := transactions_indexOf_mem F hl.nodup_ids hte
      obtain ⟨e', he', h1', h2', -⟩ := transactions_indexOf_mem F' hl'.nodup_ids hte'
      rw [hidte] at he'
      rw [he, he', Option.map_some, Option.map_some, h1, h1', h2, h2', htx, hheight]
    · rw [transactions_indexOf_none F hid, transactions_indexOf_none F' (hi ▸ hid)]

end Bare

/-- Two pools hold the same under `id`, up to signatures that are cut in the zone. -/
def Agree (zone : Bool) (p p' : TxMemoryPool) (id : Hash) : Prop :=
  (p.transactions.get id).map (fun d => cutIn zone d.tx) =
    (p'.transactions.get id).map fun d => cutIn zone d.tx

/-- Both loops go through with the same sums, or both stop, and for the same kind of reason. -/
def SameLoops : Except TxLoopFailure TxLoop → Except TxLoopFailure TxLoop → Prop
  | .ok st, .ok st' => st.feeSummary = st'.feeSummary ∧
      st.cumulativeBlockSize = st'.cumulativeBlockSize
  | .error f, .error f' => f.addAsInvalid = f'.addAsInvalid
  | _, _ => False

theorem Agree.erase {E : Env} {zone : Bool} {p p' : TxMemoryPool} {id : Hash} {d d' : TxDetails}
    (x : Hash) (h : Agree zone p p' id) : Agree zone (eraseTx E p x d) (eraseTx E p' x d') id := by
  unfold Agree
  simp only [eraseTx, Map.get_erase]
  split_ifs
  · rfl
  · exact h

/-- One round of the transaction loop: the answers of the input check and of what can follow decide. -/
theorem processTransactions_cons (v : ChainView) (ids : List Hash) {F : Flags} {l : List TxEntry}
    {st : TxLoop} {id : Hash} {d : TxDetails} (hrep : TxRep v.env F l st.state)
    (hd : st.state.pool.transactions.get id = some d) :
    let te : TxEntry := ⟨id, cutIn v.zone d.tx, v.blocks.length⟩
    let check := TxIndex.checkTxInputs v.env (indexOf (fun _ _ => false) l) v.now v.blocks.length
      v.zone te.tx
    (check.isSome = true ∧ Addable v.env l te ∧ ∃ s, TxRep v.env (addFlags F l te) (l ++ [te]) s ∧
        s.pool = eraseTx v.env st.state.pool id d ∧
        processTransactions v (id :: ids) st = processTransactions v ids ⟨s, st.txProcessedCount + 1,
          st.feeSummary + d.fee, st.cumulativeBlockSize + d.blobSize⟩) ∨
      (check.isSome = true ∧ ¬Addable v.env l te ∧ ∃ s,
        processTransactions v (id :: ids) st = .error ⟨s, st.txProcessedCount, false⟩) ∨
      (check.isSome = false ∧ ∃ s,
        processTransactions v (id :: ids) st = .error ⟨s, st.txProcessedCount, true⟩) := by
  intro te check
  have htake : st.state.pool.takeTx v.env id =
      some (d, eraseTx v.env st.state.pool id d) := by simp [takeTx, hd]
  obtain ⟨hcheck, -, hcases⟩ := processTransactions_step v hrep hd
  change _ = check at hcheck
  rcases hcases with ⟨hck, ha, s, hs, hp, hrep', -⟩ | ⟨hck, -⟩ | ⟨hck, hna, s, R, -, hs, -⟩
  · obtain ⟨m, hm⟩ := Option.isSome_iff_exists.mp hck
    refine Or.inl ⟨hcheck ▸ hck, ha, s, hrep', hp, ?_⟩
    unfold cutIn cutSignatures at hm hs
    simp only [processTransactions, htake, hm, hs]
  · refine Or.inr (Or.inr ⟨?_, (v.returnTx { st.state with
      pool := eraseTx v.env st.state.pool id d } te.tx).2, ?_⟩)
    · rw [← hcheck, hck]
      rfl
    · unfold cutIn cutSignatures at hck
      simp only [processTransactions, htake, hck]
      rfl
  · obtain ⟨m, hm⟩ := Option.isSome_iff_exists.mp hck
    refine Or.inr (Or.inl ⟨hcheck ▸ hck, hna, (v.returnTx s te.tx).2, ?_⟩)
    unfold cutIn cutSignatures at hm hs
    simp only [processTransactions, htake, hm, hs]
    rfl

theorem processTransactions_same (v : ChainView) (ids : List Hash) {F F' : Flags}
    {l l' : List TxEntry} (st st' : TxLoop) (hrep : TxRep v.env F l st.state)
    (hrep' : TxRep v.env F' l' st'.state) (hl : l.map TxEntry.bare = l'.map TxEntry.bare)
    (hpool : ∀ id ∈ ids, Agree v.zone st.state.pool st'.state.pool id)
    (hfee : st.feeSummary = st'.feeSummary)
    (hsize : st.cumulativeBlockSize = st'.cumulativeBlockSize) :
    SameLoops (processTransactions v ids st) (processTransactions v ids st') := by
  induction ids generalizing F F' l l' st st' with
  | nil => exact ⟨hfee, hsize⟩
  | cons id ids ih =>
    have hid := hpool id (by simp)
    unfold Agree at hid
    cases hd : st.state.pool.transactions.get id with
    | none =>
      rw [hd, Option.map_none, eq_comm, Option.map_eq_none_iff] at hid
      simp [processTransactions, takeTx, hd, hid, SameLoops]
    | some d =>
      rw [hd, Option.map_some, eq_comm, Option.map_eq_some_iff] at hid
      obtain ⟨d', hd', hcut⟩ := hid
      have hcases := processTransactions_cons v ids hrep hd
      have hcases' := processTransactions_cons v ids hrep' hd'
      -- the inputs are judged alike, and so is whether the transaction can follow
      have hadd : Addable v.env l' ⟨id, cutIn v.zone d.tx, v.blocks.length⟩ ↔
          Addable v.env l ⟨id, cutIn v.zone d.tx, v.blocks.length⟩ :=
        ⟨Addable.congr hl.symm, Addable.congr hl⟩
      have hsame := sameTxs_of_bare hrep'.linked hrep.linked hl.symm (fun _ _ => false)
        (fun _ _ => false)
      dsimp only at hcases hcases'
      rw [hcut, hadd, hsame.checkTxInputs] at hcases'
      rcases hcases with ⟨hck, ha, s, hs, hp, hproc⟩ | ⟨hck, hna, s, hproc⟩ | ⟨hck, s, hproc⟩
      · rcases hcases' with ⟨-, -, s', hs', hp', hproc'⟩ | ⟨-, hna, -⟩ | ⟨hck', -⟩
        · rw [hproc, hproc']
          refine ih _ _ hs hs' ?_ (fun x hx => ?_) ?_ ?_
          · simp [hl]
          · simp only [hp, hp']
            exact (hpool x (by simp [hx])).erase id
          · have hfees := congrArg feeOf hcut
            rw [feeOf_cutIn, feeOf_cutIn] at hfees
            simp only [hfee, (hrep.pool.entry id d hd).fee, (hrep'.pool.entry id d' hd').fee]
            exact congrArg (st'.feeSummary + ·) hfees.symm
          · have hsizes := congrArg getObjectBlobsize hcut
            rw [getObjectBlobsize_cutIn, getObjectBlobsize_cutIn] at hsizes
            simp only [hsize, (hrep.pool.entry id d hd).blobSize,
              (hrep'.pool.entry id d' hd').blobSize, hsizes]
        · exact absurd ha hna
        · rw [hck] at hck'
          cases hck'
      · rcases hcases' with ⟨-, ha, -⟩ | ⟨-, -, s', hproc'⟩ | ⟨hck', -⟩
        · exact absurd ha hna
        · rw [hproc, hproc']
          rfl
        · rw [hck] at hck'
          cases hck'
      · rcases hcases' with ⟨hck', -⟩ | ⟨hck', -⟩ | ⟨-, s', hproc'⟩
        · rw [hck] at hck'
          cases hck'
        · rw [hck] at hck'
          cases hck'
        · rw [hproc, hproc']
          rfl

/-- Two calls gave the same answer, and left the block `id` marked as invalid in both nodes or in
neither. -/
def SameVerdict (id : Hash) (r r' : Bool × BlockVerificationContext × Node) : Prop :=
  r.1 = r'.1 ∧ r.2.1 = r'.2.1 ∧
    (r.2.2.invalidBlocks.get id).isSome = (r'.2.2.invalidBlocks.get id).isSome

section Verdict

variable {E : Env} {now : ℕ} {F F' : Flags} {chain chain' : List ChainBlock} {n n' : Node} {bl : Block}
  (bvc : BlockVerificationContext)

/-- The end of a push reads nothing but the block list and the sums of the loop. -/
theorem finishBlock_same {diff : WideDifficulty} {st st' : TxLoop} (hb : n.blocks = n'.blocks)
    (hi : n.blocksIndex = n'.blocksIndex) (hfee : st.feeSummary = st'.feeSummary)
    (hsize : st.cumulativeBlockSize = st'.cumulativeBlockSize)
    (hinv : (n.invalidBlocks.get (getBlockHash E bl)).isSome =
      (n'.invalidBlocks.get (getBlockHash E bl)).isSome) :
    SameVerdict (getBlockHash E bl) (finishBlock E now bvc n bl diff st)
      (finishBlock E now bvc n' bl diff st') := by
  unfold finishBlock
  rw [hb, hi, hfee, hsize]
  dsimp only
  cases validateMinerTransaction E n'.blocks bl st'.cumulativeBlockSize st'.feeSummary
      (generatedCoins n'.blocks) with
  | none => exact ⟨rfl, rfl, hinv⟩
  | some q =>
    cases n'.blocksIndex.get (getBlockHash E bl) with
    | some _ => exact ⟨rfl, rfl, hinv⟩
    | none => exact ⟨rfl, rfl, hinv⟩

theorem addBlockTransactions_same {diff : WideDifficulty} (hrep : Rep E F chain n.toChainStores)
    (hrep' : Rep E F' chain' n'.toChainStores) (hb : n.blocks = n'.blocks)
    (hzone : n.isInCheckpointZone = n'.isInCheckpointZone)
    (hbare : (entriesOf E chain).map TxEntry.bare = (entriesOf E chain').map TxEntry.bare)
    (hgen : ∃ g, bl.minerTx.vin = [.gen g])
    (hpool : ∀ id ∈ bl.txHashes, Agree n.isInCheckpointZone n.txs.pool n'.txs.pool id)
    (hinv : (n.invalidBlocks.get (getBlockHash E bl)).isSome =
      (n'.invalidBlocks.get (getBlockHash E bl)).isSome) :
    SameVerdict (getBlockHash E bl) (addBlockTransactions E now bvc n bl diff)
      (addBlockTransactions E now bvc n' bl diff) := by
  obtain ⟨g, hg⟩ := hgen
  have hcoin := isCoinbase_of_gen hg
  have hview : n'.view E now = n.view E now := by simp only [Node.view, hb, hzone]
  have hi : n.blocksIndex = n'.blocksIndex := by
    rw [hrep.blocksIndex, hrep'.blocksIndex, ← hrep.blocks, ← hrep'.blocks, hb]
  let cb : TxEntry := coinbaseOf E bl n.blocks.length
  have hcases := addTransactionFromBlock_spec cb hrep.txs (inputsOK_of_gen hg) rfl
    (by simp [cb, hcoin]) (by simp [cb, hcoin])
  have hcases' := addTransactionFromBlock_spec cb hrep'.txs (inputsOK_of_gen hg) rfl
    (by simp [cb, hcoin]) (by simp [cb, hcoin])
  have hadd : Addable E (entriesOf E chain') cb ↔ Addable E (entriesOf E chain) cb :=
    ⟨Addable.congr hbare.symm, Addable.congr hbare⟩
  rw [hadd] at hcases'
  unfold addBlockTransactions
  rw [← hb, hview]
  dsimp only
  rcases hcases with ⟨ha, s, hs, hp, hs₁⟩ | ⟨hna, s, R, -, hs, -⟩ <;>
    rcases hcases' with ⟨ha', s', hs', hp', hs₁'⟩ | ⟨hna', s', R', -, hs', -⟩
  · have hs : addTransactionFromBlock E n.txs bl.minerTx (getTransactionHash E bl.minerTx)
      n.blocks.length = .ok s := hs
    have hs' : addTransactionFromBlock E n'.txs bl.minerTx (getTransactionHash E bl.minerTx)
      n.blocks.length = .ok s' := hs'
    rw [hs, hs']
    dsimp only
    have hloops := processTransactions_same (n.view E now) bl.txHashes
      ⟨s, 0, 0, getObjectBlobsize bl.minerTx⟩ ⟨s', 0, 0, getObjectBlobsize bl.minerTx⟩ hs₁ hs₁'
      (by simp [hbare]) (by dsimp only; rw [hp, hp']; exact hpool) rfl rfl
    revert hloops
    cases processTransactions (n.view E now) bl.txHashes ⟨s, 0, 0, getObjectBlobsize bl.minerTx⟩ with
    | ok st =>
      cases processTransactions (n.view E now) bl.txHashes
          ⟨s', 0, 0, getObjectBlobsize bl.minerTx⟩ with
      | ok st' => exact fun h => finishBlock_same bvc hb hi h.1 h.2 hinv
      | error f' => exact fun h => h.elim
    | error f =>
      cases processTransactions (n.view E now) bl.txHashes
          ⟨s', 0, 0, getObjectBlobsize bl.minerTx⟩ with
      | ok st' => exact fun h => h.elim
      | error f' =>
        intro h
        have h : f.addAsInvalid = f'.addAsInvalid := h
        refine ⟨rfl, rfl, ?_⟩
        dsimp only
        rw [h]
        cases f'.addAsInvalid with
        | true =>
          simp only [if_true]
          rw [addBlockAsInvalid_isSome, addBlockAsInvalid_isSome]
        | false => exact hinv
  · exact absurd ha hna'
  · exact absurd ha' hna
  · have hs : addTransactionFromBlock E n.txs bl.minerTx (getTransactionHash E bl.minerTx)
      n.blocks.length = .error s := hs
    have hs' : addTransactionFromBlock E n'.txs bl.minerTx (getTransactionHash E bl.minerTx)
      n.blocks.length = .error s' := hs'
    rw [hs, hs']
    exact ⟨rfl, rfl, hinv⟩

theorem handleBlockToMainChain_same (hrep : Rep E F chain n.toChainStores)
    (hrep' : Rep E F' chain' n'.toChainStores) (hb : n.blocks = n'.blocks)
    (hc : n.checkpoints = n'.checkpoints)
    (hbare : (entriesOf E chain).map TxEntry.bare = (entriesOf E chain').map TxEntry.bare)
    (hpool : ∀ id ∈ bl.txHashes,
      Agree (n.checkpoints.isInCheckpointZone n.blocks.length) n.txs.pool n'.txs.pool id)
    (hinv : (n.invalidBlocks.get (getBlockHash E bl)).isSome =
      (n'.invalidBlocks.get (getBlockHash E bl)).isSome) :
    SameVerdict (getBlockHash E bl) (handleBlockToMainChain E now bvc n bl)
      (handleBlockToMainChain E now bvc n' bl) := by
  have hscr : n.scratchpad = n'.scratchpad := by
    rw [hrep.scratchpad, hrep'.scratchpad, ← hrep.blocks, ← hrep'.blocks, hb]
  obtain ⟨ht, hs, hf⟩ := checkBlockTimestampMain_spec E now n bl
  obtain ⟨ht', hs', hf'⟩ := checkBlockTimestampMain_spec E now n' bl
  have hi := checkBlockTimestampMain_invalid E now n bl
  have hi' := checkBlockTimestampMain_invalid E now n' bl
  rw [← hb, ← ht] at ht'
  unfold handleBlockToMainChain
  dsimp only
  rw [ht', ← hb]
  generalize checkBlockTimestampMain E now n bl = q at hs hf hi
  generalize (checkBlockTimestampMain E now n' bl).2 = m' at hs' hf' hi'
  obtain ⟨ok, m⟩ := q
  simp only at hs hf hi ⊢
  -- both calls look at the same chain
  have hrep₁ : Rep E F chain m.toChainStores := hs ▸ hrep
  have hrep₁' : Rep E F' chain' m'.toChainStores := hs' ▸ hrep'
  have hinv₁ : (m.invalidBlocks.get (getBlockHash E bl)).isSome =
      (m'.invalidBlocks.get (getBlockHash E bl)).isSome := by rw [hi, hi', hinv]
  have hb₁ : m.blocks = n.blocks := congrArg ChainStores.blocks hs
  have hb₁' : m'.blocks = n.blocks := (congrArg ChainStores.blocks hs').trans hb.symm
  have hscr₁ : m.scratchpad = n.scratchpad := congrArg ChainStores.scratchpad hs
  have hscr₁' : m'.scratchpad = n.scratchpad :=
    (congrArg ChainStores.scratchpad hs').trans hscr.symm
  have hc₁ : m.checkpoints = n.checkpoints := hf.checkpoints
  have hc₁' : m'.checkpoints = n.checkpoints := hf'.checkpoints.trans hc.symm
  have hpool₁ : ∀ id ∈ bl.txHashes,
      Agree (n.checkpoints.isInCheckpointZone n.blocks.length) m.txs.pool m'.txs.pool id := by
    rw [hs, hs']
    exact hpool
  rw [hb₁, hb₁', hscr₁, hscr₁', hc₁, hc₁']
  split_ifs with h1 h2 h3 h4 h5 h6
  · exact ⟨rfl, rfl, hinv⟩
  · exact ⟨rfl, rfl, hinv₁⟩
  · exact ⟨rfl, rfl, hinv₁⟩
  · exact ⟨rfl, rfl, hinv₁⟩
  · exact ⟨rfl, rfl, hinv₁⟩
  · exact ⟨rfl, rfl, hinv₁⟩
  · obtain ⟨g, hg, -⟩ := vin_of_prevalidate (by simpa using h6)
    exact addBlockTransactions_same bvc hrep₁ hrep₁' (hb₁.trans hb₁'.symm) rfl hbare ⟨g, hg⟩ hpool₁
      hinv₁

end Verdict

/-- The same blocks, with the same transactions up to signatures. -/
structure SameChain (n n' : Node) : Prop where
  blocks : n.blocks = n'.blocks
  transactions : ∀ id,
    (n.txs.index.transactions.get id).map (fun e => e.tx.toTransactionPrefix) =
      (n'.txs.index.transactions.get id).map fun e => e.tx.toTransactionPrefix

theorem idHeights_entries {E : Env} {cps : Checkpoints} {t : ℕ} {chain : List ChainBlock}
    {c : ChainBlock} (hc : ValidNext E cps t chain c) :
    (c.entries E).map (fun te => (te.id, te.height)) =
      (getTransactionHash E c.bei.bl.minerTx, c.bei.height) ::
        c.bei.bl.txHashes.map fun id => (id, c.bei.height) := by
  rw [ChainBlock.entries, List.map_cons, ← hc.txIds, List.map_map]
  refine congrArg₂ List.cons rfl (List.map_congr_left fun te hte => ?_)
  rw [hc.txs.height te hte, hc.height]
  rfl

theorem idHeights_entriesOf {E : Env} {cps : Checkpoints} {t : ℕ} {chain : List ChainBlock}
    (hv : ValidChain E cps t chain) :
    (entriesOf E chain).map (fun te => (te.id, te.height)) =
      (blocksOf chain).flatMap fun bei =>
        (getTransactionHash E bei.bl.minerTx, bei.height) ::
          bei.bl.txHashes.map fun id => (id, bei.height) := by
  induction hv with
  | genesis hc => simpa [entriesOf, blocksOf] using idHeights_entries hc
  | @snoc chain c _ hc ih =>
    rw [entriesOf_append, List.map_append, ih, blocksOf_append, List.flatMap_append]
    simpa [entriesOf, blocksOf] using idHeights_entries hc

theorem bare_eq {E : Env} {F : Flags} {chain : List ChainBlock} {n : Node}
    (hrep : Rep E F chain n.toChainStores) {te : TxEntry} (hte : te ∈ entriesOf E chain) :
    (n.txs.index.transactions.get te.id).map (fun e => e.tx.toTransactionPrefix) =
      some te.tx.toTransactionPrefix := by
  rw [hrep.txs.index]
  obtain ⟨e, he, htx, -⟩ := transactions_indexOf_mem F hrep.txs.linked.nodup_ids hte
  rw [he, Option.map_some, htx]

theorem SameChain.bare {E : Env} {cps cps' : Checkpoints} {t t' : ℕ} {F F' : Flags}
    {chain chain' : List ChainBlock} {n n' : Node} (h : SameChain n n')
    (hv : ValidChain E cps t chain) (hv' : ValidChain E cps' t' chain')
    (hrep : Rep E F chain n.toChainStores) (hrep' : Rep E F' chain' n'.toChainStores) :
    (entriesOf E chain).map TxEntry.bare = (entriesOf E chain').map TxEntry.bare := by
  have hblocks : blocksOf chain = blocksOf chain' := by rw [← hrep.blocks, ← hrep'.blocks, h.blocks]
  -- an entry is its id, its height and what is stored under the id
  let G (P : Option TransactionPrefix) (p : Hash × ℕ) : TxEntry :=
    ⟨p.1, ⟨P.getD genesisCoinbaseTx.toTransactionPrefix, []⟩, p.2⟩
  have hG : ∀ {F chain} {n : Node}, Rep E F chain n.toChainStores →
      (entriesOf E chain).map TxEntry.bare =
        ((entriesOf E chain).map fun te => (te.id, te.height)).map fun p => G
          ((n.txs.index.transactions.get p.1).map fun e => e.tx.toTransactionPrefix) p := by
    intro F chain n hrep
    rw [List.map_map]
    refine List.map_congr_left fun te hte => ?_
    simp only [Function.comp_apply, G, bare_eq hrep hte]
    rfl
  rw [hG hrep, hG hrep', idHeights_entriesOf hv, idHeights_entriesOf hv', hblocks]
  refine List.map_congr_left fun p _ => ?_
  rw [h.transactions]

/-- The transaction the pool holds under an id. -/
def heldTx (n : Node) (id : Hash) : Option Transaction :=
  (n.txs.pool.transactions.get id).map TxDetails.tx

/-- Hand in transactions as kept by a block. -/
def deliver (now : ℕ) (txs : List Transaction) : List Event :=
  txs.map fun tx => .transaction now tx true

/-- What is held after the transactions `txs` were handed in: what was held before, and else the first
of them with the id, if the chain does not have it. -/
def heldAfter (E : Env) (n : Node) (txs : List Transaction) (id : Hash) : Option Transaction :=
  heldTx n id <|> if (n.txs.index.transactions.get id).isSome then none
    else txs.find? fun tx => getTransactionHash E tx = id

/-- What a block keeps may be larger than a block. -/
theorem checkTxSemantic_kept (E : Env) (tx : Transaction) (limit limit' : ℕ) :
    checkTxSemantic E limit tx true = checkTxSemantic E limit' tx true := by
  unfold checkTxSemantic
  simp only [Bool.not_true, Bool.false_and]

/-- A transaction that is kept by a block comes to the pool unless its id is known. -/
theorem handleIncomingTx_kept {E : Env} {F : Flags} {chain : List ChainBlock} {n : Node} (now : ℕ)
    {tx : Transaction} (hrep : Rep E F chain n.toChainStores)
    (hsem : checkTxSemantic E 0 tx true = true) :
    ∃ p, (handleIncomingTx E now n tx true).2.2 = { n with txs := { n.txs with pool := p } } ∧
      ∀ id, heldTx { n with txs := { n.txs with pool := p } } id = heldAfter E n [tx] id := by
  have hsem' := (checkTxSemantic_kept E tx n.currentBlockCumulSzLimit 0).trans hsem
  -- nothing changes for an id that is known
  have hsame : (n.txs.pool.haveTx (getTransactionHash E tx) = true ∨
      (n.txs.index.transactions.get (getTransactionHash E tx)).isSome = true) →
      ∀ id, heldTx n id = heldAfter E n [tx] id := by
    intro hknown id
    unfold heldAfter
    cases hheld : heldTx n id with
    | some t => rfl
    | none =>
      by_cases hid : getTransactionHash E tx = id
      · rcases hknown with hpool | hindex
        · rw [hid, haveTx] at hpool
          obtain ⟨d, hd⟩ := Option.isSome_iff_exists.mp hpool
          simp [heldTx, hd] at hheld
        · rw [hid] at hindex
          simp [hindex]
      · simp [hid]
  unfold handleIncomingTx addNewTx
  rw [if_pos hsem']
  split_ifs with h1 h2
  · exact ⟨n.txs.pool, rfl, hsame (Or.inl h1)⟩
  · exact ⟨n.txs.pool, rfl, hsame (Or.inr h2)⟩
  · have hnone : n.txs.pool.transactions.get (getTransactionHash E tx) = none := by
      simpa [haveTx] using h1
    obtain ⟨tvc', p, d, hadd, hset, hd, -⟩ := addTx_kept now
      ((n.view E now).checkTxInputs n.txs.index) {} hrep.txs.pool (semantic_of_checkTxSemantic hsem)
      hnone
    refine ⟨p, by simp only [hadd], fun id => ?_⟩
    unfold heldAfter heldTx
    dsimp only
    rw [hset, Map.get_set]
    split_ifs with hid h3 h3
    · rw [hid] at h3
      exact absurd h3 h2
    · simp [hid, hnone, hd]
    · simp
    · simp [Ne.symm hid]

theorem run_deliver {E : Env} {F : Flags} {chain : List ChainBlock} {n : Node} (now : ℕ)
    {txs : List Transaction} (hrep : Rep E F chain n.toChainStores)
    (hsem : ∀ tx ∈ txs, checkTxSemantic E 0 tx true = true) :
    ∃ p, run E n (deliver now txs) = some { n with txs := { n.txs with pool := p } } ∧
      Rep E F chain { n.toChainStores with txs := { n.txs with pool := p } } ∧
      ∀ id, heldTx { n with txs := { n.txs with pool := p } } id = heldAfter E n txs id := by
  induction txs generalizing n with
  | nil => exact ⟨n.txs.pool, rfl, hrep, fun id => by simp [heldAfter]⟩
  | cons tx txs ih =>
    obtain ⟨p, hp, hheld⟩ := handleIncomingTx_kept now hrep (hsem tx (by simp))
    have hrep₁ := (handleIncomingTx_spec now tx true hrep).1
    rw [hp] at hrep₁
    obtain ⟨p', hrun, hrep', hheld'⟩ := ih hrep₁ fun t ht => hsem t (by simp [ht])
    refine ⟨p', ?_, hrep', fun id => ?_⟩
    · rw [← hrun]
      simp only [deliver, List.map_cons, run, Event.apply, hp]
    · have h1 := hheld' id
      simp only [heldAfter, hheld id] at h1
      refine h1.trans ?_
      simp only [heldAfter]
      cases heldTx n id with
      | some t => rfl
      | none =>
        split_ifs
        · rfl
        · by_cases hid : getTransactionHash E tx = id
          · simp [hid]
          · simp [hid]

section Alternative

variable {E : Env} {n n' : Node}

/-- The branch `b` would extend does not become heavier than the main chain. -/
def NotHeavier (E : Env) (n : Node) (b : Block) : Prop :=
  ∀ altChain a, altChainOf n.alternativeChains b.prevId = some altChain →
    attach E n b.prevId altChain = some a →
    ¬topDifficulty n.blocks <
      a.prevDifficulty + getNextDifficultyForAlternativeChain n.blocks a.branch (a.prevHeight + 1)

/-- What the code for alternative blocks reads is the same. -/
structure SameBranches (n n' : Node) : Prop where
  blocks : n.blocks = n'.blocks
  blocksIndex : n.blocksIndex = n'.blocksIndex
  scratchpad : n.scratchpad = n'.scratchpad
  checkpoints : n.checkpoints = n'.checkpoints
  alternativeChains : n.alternativeChains = n'.alternativeChains

/-- An alternative block is added to the branch in both nodes or in neither. -/
theorem addAlternativeBlock_same (h : SameBranches n n') (bvc : BlockVerificationContext) (b : Block)
    (a : Attachment) (id : Hash)
    (hinv : (n.invalidBlocks.get id).isSome = (n'.invalidBlocks.get id).isSome) :
    (∃ r r', addAlternativeBlock E bvc n b a = .error r ∧
        addAlternativeBlock E bvc n' b a = .error r' ∧ SameVerdict id r r') ∨
      ∃ altChain m m', addAlternativeBlock E bvc n b a = .ok (altChain, m) ∧
        addAlternativeBlock E bvc n' b a = .ok (altChain, m') ∧
        (m.invalidBlocks.get id).isSome = (m'.invalidBlocks.get id).isSome := by
  obtain ⟨ht, hs, hf⟩ := checkBlockTimestamp_spec E n
    (altTimestamps n.blocks (a.connectionHeight - 1) a.branch) b
  obtain ⟨ht', hs', hf'⟩ := checkBlockTimestamp_spec E n'
    (altTimestamps n.blocks (a.connectionHeight - 1) a.branch) b
  have hi := checkBlockTimestamp_invalid (E := E) n
    (altTimestamps n.blocks (a.connectionHeight - 1) a.branch) b
  have hi' := checkBlockTimestamp_invalid (E := E) n'
    (altTimestamps n.blocks (a.connectionHeight - 1) a.branch) b
  unfold addAlternativeBlock
  rw [← h.blocks]
  dsimp only
  rw [ht, ht']
  generalize (checkBlockTimestamp E n
    (altTimestamps n.blocks (a.connectionHeight - 1) a.branch) b).2 = m at hs hf hi
  generalize (checkBlockTimestamp E n'
    (altTimestamps n.blocks (a.connectionHeight - 1) a.branch) b).2 = m' at hs' hf' hi'
  have hinv₁ : (m.invalidBlocks.get id).isSome = (m'.invalidBlocks.get id).isSome := by
    rw [hi, hi', hinv]
  have hpow : altProofOfWork E m b a = altProofOfWork E m' b a := by
    simp only [altProofOfWork, hs, hs', h.blocks, h.scratchpad]
  have hc : m.checkpoints = m'.checkpoints := by
    rw [hf.checkpoints, hf'.checkpoints, h.checkpoints]
  have ha : m.alternativeChains = m'.alternativeChains := by
    rw [hf.alternativeChains, hf'.alternativeChains, h.alternativeChains]
  rw [hpow, hc, ha]
  cases timestampsAccept (altTimestamps n.blocks (a.connectionHeight - 1) a.branch) b with
  | false => exact Or.inl ⟨_, _, rfl, rfl, rfl, rfl, hinv₁⟩
  | true =>
    cases altProofOfWork E m' b a with
    | none => exact Or.inl ⟨_, _, rfl, rfl, rfl, rfl, hinv₁⟩
    | some q =>
      obtain ⟨bei, diff, pow⟩ := q
      simp only [Bool.not_true, Bool.false_eq_true, if_false]
      split_ifs
      · exact Or.inl ⟨_, _, rfl, rfl, rfl, rfl, hinv₁⟩
      · exact Or.inl ⟨_, _, rfl, rfl, rfl, rfl, hinv₁⟩
      · exact Or.inl ⟨_, _, rfl, rfl, rfl, rfl, hinv₁⟩
      · cases m'.alternativeChains.get (getBlockHash E b) with
        | some _ => exact Or.inl ⟨_, _, rfl, rfl, rfl, rfl, hinv₁⟩
        | none => exact Or.inr ⟨_, _, _, rfl, rfl, hinv₁⟩

theorem handleAlternativeBlock_same {now fuel : ℕ} {bvc : BlockVerificationContext} {b : Block}
    {id : Hash} {r r' : Bool × BlockVerificationContext × Node} (h : SameBranches n n')
    (hinv : (n.invalidBlocks.get id).isSome = (n'.invalidBlocks.get id).isSome)
    (hlight : NotHeavier E n b) (hr : handleAlternativeBlock E now fuel bvc n b = some r)
    (hr' : handleAlternativeBlock E now fuel bvc n' b = some r') : SameVerdict id r r' := by
  cases fuel with
  | zero => simp [handleAlternativeBlock] at hr
  | succ fuel =>
    have hattach : ∀ altChain, attach E n' b.prevId altChain = attach E n b.prevId altChain := by
      intro altChain
      simp only [attach, h.blocks, h.blocksIndex]
    unfold handleAlternativeBlock at hr hr'
    rw [← h.blocks, ← h.blocksIndex, ← h.checkpoints, ← h.alternativeChains] at hr'
    split_ifs at hr hr'
    · rw [← Option.some.inj hr, ← Option.some.inj hr']
      exact ⟨rfl, rfl, hinv⟩
    · rw [← Option.some.inj hr, ← Option.some.inj hr']
      exact ⟨rfl, rfl, hinv⟩
    cases hchain : altChainOf n.alternativeChains b.prevId with
    | none => simp [hchain] at hr
    | some altChain =>
      simp only [hchain, hattach] at hr hr'
      cases hatt : attach E n b.prevId altChain with
      | none =>
        simp only [hatt, Option.some.injEq] at hr hr'
        rw [← hr, ← hr']
        exact ⟨rfl, rfl, hinv⟩
      | some a =>
        simp only [hatt] at hr hr'
        rcases addAlternativeBlock_same (E := E) h bvc b a id hinv with
          ⟨q, q', hq, hq', hsame⟩ | ⟨altChain', m, m', hm, hm', hsame⟩
        · simp only [hq, Option.some.injEq] at hr
          simp only [hq', Option.some.injEq] at hr'
          rw [← hr, ← hr']
          exact hsame
        · obtain ⟨bei, diff, pow, hpow, -, -, -, -, -, halt, hs, -⟩ := addAlternativeBlock_ok hm
          obtain ⟨-, -, -, -, -, -, hdiff, -⟩ := altProofOfWork_some hpow
          have hs' := (addAlternativeBlock_taken hm').1
          have htop : topDifficulty (altChain'.map Prod.snd) = a.prevDifficulty +
              getNextDifficultyForAlternativeChain n.blocks a.branch (a.prevHeight + 1) := by
            rw [halt, List.map_append, List.map_singleton, topDifficulty_append_singleton, hdiff]
          have hb : m.blocks = n.blocks := congrArg ChainStores.blocks hs
          have hb' : m'.blocks = n.blocks := (congrArg ChainStores.blocks hs').trans h.blocks.symm
          have hlight := hlight altChain a hchain hatt
          rw [← htop] at hlight
          simp only [hm, hb, if_neg hlight, Option.some.injEq] at hr
          simp only [hm', hb', if_neg hlight, Option.some.injEq] at hr'
          rw [← hr, ← hr']
          exact ⟨rfl, rfl, hsame⟩

end Alternative

/-- What the pool holds under the id of one of the transactions is this transaction, up to signatures
that are cut in the zone, and it is not on the chain. -/
def HoldsOnly (E : Env) (n : Node) (txs : List Transaction) : Prop :=
  ∀ tx ∈ txs, ∀ t, heldTx n (getTransactionHash E tx) = some t →
    cutIn (n.checkpoints.isInCheckpointZone n.blocks.length) t =
        cutIn (n.checkpoints.isInCheckpointZone n.blocks.length) tx ∧
      n.txs.index.transactions.get (getTransactionHash E tx) = none

theorem agree_of_heldAfter {E : Env} {n n' m m' : Node} {txs : List Transaction}
    (hsame : SameChain n n') (hc : n.checkpoints = n'.checkpoints) (hheld : HoldsOnly E n txs)
    (hheld' : HoldsOnly E n' txs) (hm : ∀ id, heldTx m id = heldAfter E n txs id)
    (hm' : ∀ id, heldTx m' id = heldAfter E n' txs id) {id : Hash}
    (hid : id ∈ txs.map (getTransactionHash E)) :
    Agree (n.checkpoints.isInCheckpointZone n.blocks.length) m.txs.pool m'.txs.pool id := by
  rw [HoldsOnly, ← hc, ← hsame.blocks] at hheld'
  unfold HoldsOnly at hheld
  generalize n.checkpoints.isInCheckpointZone n.blocks.length = zone at hheld hheld' ⊢
  have hmap : ∀ q : Node, (q.txs.pool.transactions.get id).map (fun d => cutIn zone d.tx) =
      (heldTx q id).map (cutIn zone) := fun q => by
    rw [heldTx, Option.map_map]
    rfl
  unfold Agree
  rw [hmap, hmap, hm, hm']
  obtain ⟨tx₀, htx₀, rfl⟩ := List.mem_map.mp hid
  have hindex : (n.txs.index.transactions.get (getTransactionHash E tx₀)).isSome =
      (n'.txs.index.transactions.get (getTransactionHash E tx₀)).isSome := by
    have := congrArg Option.isSome (hsame.transactions (getTransactionHash E tx₀))
    simpa using this
  -- the first transaction with the id is what either pool holds in the end
  cases hon : (n.txs.index.transactions.get (getTransactionHash E tx₀)).isSome with
  | true =>
    have hnone : heldTx n (getTransactionHash E tx₀) = none := by
      cases hh : heldTx n (getTransactionHash E tx₀) with
      | none => rfl
      | some t =>
        rw [(hheld tx₀ htx₀ t hh).2] at hon
        cases hon
    have hnone' : heldTx n' (getTransactionHash E tx₀) = none := by
      cases hh : heldTx n' (getTransactionHash E tx₀) with
      | none => rfl
      | some t =>
        rw [hindex, (hheld' tx₀ htx₀ t hh).2] at hon
        cases hon
    simp only [heldAfter, hnone, hnone', ← hindex, hon]
  | false =>
    obtain ⟨t, ht⟩ : ∃ t, (txs.find? fun tx =>
        getTransactionHash E tx = getTransactionHash E tx₀) = some t := by
      rw [← Option.isSome_iff_exists, List.find?_isSome]
      exact ⟨tx₀, htx₀, by simp⟩
    have hthash : getTransactionHash E t = getTransactionHash E tx₀ := by
      simpa using List.find?_some ht
    have htmem := List.mem_of_find?_eq_some ht
    have hfinal : ∀ q : Node, (q.txs.index.transactions.get (getTransactionHash E tx₀)).isSome = false →
        (∀ s, heldTx q (getTransactionHash E tx₀) = some s → cutIn zone s = cutIn zone t) →
        (heldAfter E q txs (getTransactionHash E tx₀)).map (cutIn zone) = some (cutIn zone t) := by
      intro q hq hs
      unfold heldAfter
      cases hh : heldTx q (getTransactionHash E tx₀) with
      | none => simp [hq, ht]
      | some s => simp [hs s hh]
    rw [hfinal n hon fun s hs => (hheld t htmem s (by rw [hthash, hs])).1,
      hfinal n' (hindex ▸ hon) fun s hs => (hheld' t htmem s (by rw [hthash, hs])).1]

/-- Two runs that led to the same chain, in which whatever the pools held under the ids of the block's
transactions was these transactions, give the block the same verdict once its transactions were
delivered. -/
theorem verdict_of_runs (E : Env) (cps : Checkpoints) (now fuel : ℕ) (n n' m m' : Node) (bl : Block)
    (txs : List Transaction) (r r' : Bool × BlockVerificationContext × Node)
    (h : Reachable E cps n) (h' : Reachable E cps n') (hsame : SameChain n n')
    (htxs : bl.txHashes = txs.map (getTransactionHash E))
    (hvalid : ∀ tx ∈ txs, checkTxSemantic E 0 tx true = true)
    (hheld : HoldsOnly E n txs) (hheld' : HoldsOnly E n' txs)
    (hknown : haveBlock n (getBlockHash E bl) = haveBlock n' (getBlockHash E bl))
    (hinv : (n.invalidBlocks.get (getBlockHash E bl)).isSome =
      (n'.invalidBlocks.get (getBlockHash E bl)).isSome)
    (hbranch : bl.prevId = getTopBlockId E n.blocks ∨
      n.alternativeChains = n'.alternativeChains ∧ NotHeavier E n bl)
    (hm : run E n (deliver now txs) = some m) (hm' : run E n' (deliver now txs) = some m')
    (hr : addNewBlock E now fuel {} m bl = some r)
    (hr' : addNewBlock E now fuel {} m' bl = some r') : SameVerdict (getBlockHash E bl) r r' := by
  obtain ⟨F, chain, hcp, ⟨t, hv⟩, hrep⟩ := chainInv_of_reachable h
  obtain ⟨F', chain', hcp', ⟨t', hv'⟩, hrep'⟩ := chainInv_of_reachable h'
  have hbare := hsame.bare hv hv' hrep hrep'
  have hc : n.checkpoints = n'.checkpoints := hcp.trans hcp'.symm
  obtain ⟨p, hrun, hrepm, hheldm⟩ := run_deliver now hrep hvalid
  obtain ⟨p', hrun', hrepm', hheldm'⟩ := run_deliver now hrep' hvalid
  have hmeq := Option.some.inj (hm.symm.trans hrun)
  have hmeq' := Option.some.inj (hm'.symm.trans hrun')
  have hagree : ∀ id ∈ bl.txHashes,
      Agree (n.checkpoints.isInCheckpointZone n.blocks.length) p p' id := fun id hid =>
    agree_of_heldAfter hsame hc hheld hheld' hheldm hheldm' (htxs ▸ hid)
  -- the delivery leaves all but the pools as it was
  have hb : m.blocks = n.blocks := by rw [hmeq]
  have hb' : m'.blocks = n.blocks := by rw [hmeq', hsame.blocks]
  have hk : haveBlock m (getBlockHash E bl) = haveBlock n (getBlockHash E bl) := by rw [hmeq]; rfl
  have hk' : haveBlock m' (getBlockHash E bl) = haveBlock n (getBlockHash E bl) := by
    rw [hmeq', hknown]
    rfl
  have hinv₁ : (m.invalidBlocks.get (getBlockHash E bl)).isSome =
      (m'.invalidBlocks.get (getBlockHash E bl)).isSome := by
    rw [hmeq, hmeq']
    exact hinv
  unfold addNewBlock at hr hr'
  rw [hk, hb] at hr
  rw [hk', hb'] at hr'
  split_ifs at hr hr' with h1 h2
  · rw [← Option.some.inj hr, ← Option.some.inj hr']
    exact ⟨rfl, rfl, hinv₁⟩
  · obtain ⟨halts, hlight⟩ := hbranch.resolve_left h2
    have hbranches : SameBranches m m' := by
      rw [hmeq, hmeq']
      refine ⟨hsame.blocks, ?_, ?_, hc, halts⟩
      · exact (hrep.blocksIndex.trans (by rw [← hrep.blocks, hsame.blocks, hrep'.blocks])).trans
          hrep'.blocksIndex.symm
      · exact (hrep.scratchpad.trans (by rw [← hrep.blocks, hsame.blocks, hrep'.blocks])).trans
          hrep'.scratchpad.symm
    have hlight₁ : NotHeavier E m bl := by
      rw [hmeq]
      exact hlight
    exact handleAlternativeBlock_same hbranches hinv₁ hlight₁ hr hr'
  · rw [← Option.some.inj hr, ← Option.some.inj hr']
    have hrep₁ : Rep E F chain m.toChainStores := by
      rw [hmeq]
      exact hrepm
    have hrep₁' : Rep E F' chain' m'.toChainStores := by
      rw [hmeq']
      exact hrepm'
    refine handleBlockToMainChain_same {} hrep₁ hrep₁' (hb.trans hb'.symm) ?_ hbare ?_ hinv₁
    · rw [hmeq, hmeq']
      exact hc
    · rw [hmeq, hmeq']
      exact hagree

/-- A node with ten blocks is handed in `seen`, then `signedSpend`, then a block with it. -/
def seeAndDeliver (seen : List Transaction) (n : Node) :
    Option (Bool × BlockVerificationContext × Node) :=
  ((run sampleEnv n (deliver 0 seen)).bind fun n' =>
    run sampleEnv n' (deliver 0 [signedSpend])).bind fun m =>
      addNewBlock sampleEnv 0 1 {} m (spendingBlock n signedSpend 0)

/-- The other transaction spends the same output; it stays in the pool. -/
theorem verdict_sampleSpend : ∃ n n' m m' bl r r', Reachable sampleEnv ∅ n ∧
    Reachable sampleEnv ∅ n' ∧ SameChain n n' ∧
    n.txs.pool.transactions.keys.card = 0 ∧ n'.txs.pool.transactions.keys.card = 1 ∧
    run sampleEnv n (deliver 0 [signedSpend]) = some m ∧
    run sampleEnv n' (deliver 0 [signedSpend]) = some m' ∧
    addNewBlock sampleEnv 0 1 {} m bl = some r ∧ addNewBlock sampleEnv 0 1 {} m' bl = some r' ∧
    r.1 = true ∧ SameVerdict (getBlockHash sampleEnv bl) r r' := by
  let id := getTransactionHash sampleEnv signedSpend
  have hdec : (sampleNode ∅ 10).map (fun n =>
      decide (n.txs.pool.transactions.keys.card = 0) &&
      decide ((run sampleEnv n (deliver 0 [sampleSpend 2])).map (fun n' =>
        n'.txs.pool.transactions.keys.card) = some 1) &&
      decide ((run sampleEnv n (deliver 0 [sampleSpend 2])).map (fun n' => heldTx n' id) =
        some none) &&
      decide ((seeAndDeliver [] n).map (fun r => r.1) = some true) &&
      (seeAndDeliver [sampleSpend 2] n).isSome) = some true := by
    decide +kernel
  obtain ⟨n, hn, hview⟩ := Option.map_eq_some_iff.mp hdec
  simp only [Bool.and_eq_true, decide_eq_true_eq] at hview
  obtain ⟨⟨⟨⟨hempty, hcard⟩, hheld'⟩, hok⟩, hsome⟩ := hview
  obtain ⟨n', hn', hcard⟩ := Option.map_eq_some_iff.mp hcard
  obtain ⟨r, hr, hr1⟩ := Option.map_eq_some_iff.mp hok
  obtain ⟨r', hr'⟩ := Option.isSome_iff_exists.mp hsome
  rw [hn', Option.map_some, Option.some.injEq] at hheld'
  obtain ⟨m, hm, hr⟩ := Option.bind_eq_some_iff.mp hr
  obtain ⟨m', hm', hr'⟩ := Option.bind_eq_some_iff.mp hr'
  rw [show run sampleEnv n (deliver 0 []) = some n from rfl, Option.bind_some] at hm
  rw [hn', Option.bind_some] at hm'
  have hreach := reachable_sampleNode hn
  obtain ⟨F, chain, -, -, hrep⟩ := chainInv_of_reachable hreach
  obtain ⟨p, hrun, -, -⟩ := run_deliver 0 hrep
    (show ∀ tx ∈ [sampleSpend 2], checkTxSemantic sampleEnv 0 tx true = true by decide +kernel)
  have heq := Option.some.inj (hn'.symm.trans hrun)
  have hsame : SameChain n n' := by
    rw [heq]
    exact ⟨rfl, fun _ => rfl⟩
  have hheld : HoldsOnly sampleEnv n [signedSpend] := by
    intro tx htx t ht
    obtain ⟨d, hd, -⟩ := Option.map_eq_some_iff.mp ht
    have hmem := Map.mem_keys.mpr ⟨d, hd⟩
    rw [Finset.card_eq_zero.mp hempty] at hmem
    simp at hmem
  refine ⟨n, n', m, m', _, r, r', hreach, hreach.run hn', hsame, hempty, hcard, hm, hm', hr, hr', hr1,
    verdict_of_runs sampleEnv ∅ 0 1 n n' m m' (spendingBlock n signedSpend 0) [signedSpend] r r' hreach
      (hreach.run hn') hsame rfl (by decide +kernel) hheld ?_ ?_ ?_ (Or.inl rfl) hm hm' hr hr'⟩
  · intro tx htx t ht
    rw [List.mem_singleton.mp htx, hheld'] at ht
    cases ht
  · rw [heq]
    rfl
  · rw [heq]

/-- A transaction with the same id and no signature, seen before, makes the block invalid for good. -/
theorem verdict_depends : ∃ n n' m m' bl r r', Reachable sampleEnv ∅ n ∧
    run sampleEnv n (deliver 0 [sampleSpend 1]) = some n' ∧ SameChain n n' ∧
    bl.txHashes = [getTransactionHash sampleEnv signedSpend] ∧
    run sampleEnv n (deliver 0 [signedSpend]) = some m ∧
    run sampleEnv n' (deliver 0 [signedSpend]) = some m' ∧
    addNewBlock sampleEnv 0 1 {} m bl = some r ∧ addNewBlock sampleEnv 0 1 {} m' bl = some r' ∧
    r.1 = true ∧ (r.2.2.invalidBlocks.get (getBlockHash sampleEnv bl)).isSome = false ∧
    r'.1 = false ∧ (r'.2.2.invalidBlocks.get (getBlockHash sampleEnv bl)).isSome = true := by
  let invalid (n : Node) (r : Bool × BlockVerificationContext × Node) : Bool :=
    (r.2.2.invalidBlocks.get (getBlockHash sampleEnv (spendingBlock n signedSpend 0))).isSome
  have hdec : (sampleNode ∅ 10).map (fun n =>
      decide ((seeAndDeliver [] n).map (fun r => (r.1, invalid n r)) = some (true, false)) &&
      decide ((seeAndDeliver [sampleSpend 1] n).map (fun r => (r.1, invalid n r)) =
        some (false, true))) = some true := by
    decide +kernel
  obtain ⟨n, hn, hview⟩ := Option.map_eq_some_iff.mp hdec
  simp only [Bool.and_eq_true, decide_eq_true_eq] at hview
  obtain ⟨r, hr, hans⟩ := Option.map_eq_some_iff.mp hview.1
  obtain ⟨r', hr', hans'⟩ := Option.map_eq_some_iff.mp hview.2
  obtain ⟨m, hm, hr⟩ := Option.bind_eq_some_iff.mp hr
  obtain ⟨m', hm', hr'⟩ := Option.bind_eq_some_iff.mp hr'
  obtain ⟨n', hn', hm'⟩ := Option.bind_eq_some_iff.mp hm'
  rw [show run sampleEnv n (deliver 0 []) = some n from rfl, Option.bind_some] at hm
  obtain ⟨h1, h2⟩ := Prod.mk.inj hans
  obtain ⟨h1', h2'⟩ := Prod.mk.inj hans'
  have hreach := reachable_sampleNode hn
  obtain ⟨F, chain, -, -, hrep⟩ := chainInv_of_reachable hreach
  obtain ⟨p, hrun, -, -⟩ := run_deliver 0 hrep
    (show ∀ tx ∈ [sampleSpend 1], checkTxSemantic sampleEnv 0 tx true = true by decide +kernel)
  have heq := Option.some.inj (hn'.symm.trans hrun)
  have hsame : SameChain n n' := by
    rw [heq]
    exact ⟨rfl, fun _ => rfl⟩
  exact ⟨n, n', m, m', _, r, r', hreach, hn', hsame, rfl, hm, hm', hr, hr', h1, h2, h1', h2'⟩

end Boolberry
