import Boolberry.OutputIndex

/-!
# Popping the block that was pushed last

A pop undoes the push before it in every store but one respect: the purge clears
the spent flag of every output that the block spends directly, also of one that
was flagged before. And a coinbase output that is not `txout_to_key` is pushed
but cannot be popped.
-/

namespace Boolberry
open KeyValue TxMemoryPool

/-- The chain stores agree; an empty alias history counts as absent. The size limit for the next block is no
store of its own: a pop leaves it, and every push computes it from the blocks. -/
structure Restored (n n' : Node) : Prop where
  blocks : n'.blocks = n.blocks
  blocksIndex : n'.blocksIndex = n.blocksIndex
  transactions : n'.txs.index.transactions = n.txs.index.transactions
  spentKeys : n'.txs.index.spentKeys = n.txs.index.spentKeys
  outputs : n'.txs.index.outputs = n.txs.index.outputs
  aliases : AliasDb.Equiv n'.txs.aliasDb n.txs.aliasDb
  scratchpad : n'.scratchpad = n.scratchpad

/-- No transaction of `b` that waits in the pool has an input with a single offset to an output of
the main chain that is flagged as spent. -/
def SpendsUnflagged (n : Node) (b : Block) : Prop :=
  ∀ id ∈ b.txHashes, ∀ d, n.txs.pool.transactions.get id = some d →
    ∀ inp, Txin.toKey inp ∈ d.tx.vin → ∀ g, inp.keyOffsets = [g] →
      ∀ out, (n.txs.index.outputs inp.amount)[g.toNat]? = some out →
        ∀ e, n.txs.index.transactions.get out.1 = some e → e.spentFlags[out.2]? ≠ some true

theorem mem_directRefs {o : OutputsContainer} {vin : List Txin} {r : Hash × ℕ} :
    r ∈ directRefs o vin ↔ ∃ inp g, Txin.toKey inp ∈ vin ∧ inp.keyOffsets = [g] ∧
      (o inp.amount)[g.toNat]? = some r := by
  unfold directRefs
  rw [List.mem_filterMap]
  constructor
  · rintro ⟨i, hi, hr⟩
    unfold directRef at hr
    split at hr
    · rename_i inp
      split at hr
      · rename_i g hg
        exact ⟨inp, g, hi, hg, hr⟩
      · simp at hr
    · simp at hr
  · rintro ⟨inp, g, hi, hg, hr⟩
    exact ⟨.toKey inp, hi, by simp [directRef, hg, hr]⟩

/-- A reference to a transaction of `l` does not depend on what was appended to `l`. -/
theorem mem_refsOf_append {E : Env} {l es : List TxEntry} {tx : Transaction} {te : TxEntry} {k : ℕ}
    (hl : Linked E (l ++ es)) (hte : te ∈ l) :
    (te.id, k) ∈ refsOf (l ++ es) tx ↔ (te.id, k) ∈ refsOf l tx := by
  rw [refsOf, refsOf, mem_directRefs, mem_directRefs]
  refine exists_congr fun inp => exists_congr fun g => and_congr_right fun _ =>
    and_congr_right fun _ => ?_
  rw [outputsOf_append]
  by_cases hlt : g.toNat < (outputsOf l inp.amount).length
  · rw [List.getElem?_append_left hlt]
  · -- the output would belong to a later transaction, whose id is another one
    rw [List.getElem?_append_right (Nat.not_lt.mp hlt),
      List.getElem?_eq_none (Nat.not_lt.mp hlt)]
    simp only [reduceCtorEq, iff_false]
    intro hmem
    obtain ⟨te', hte', hid, -⟩ := exists_of_mem_outputsOf (List.mem_of_getElem? hmem)
    have hnd := hl.nodup_ids
    rw [List.map_append, List.nodup_append] at hnd
    exact hnd.2.2 te.id (List.mem_map_of_mem hte) te'.id (List.mem_map_of_mem hte') hid.symm

theorem mem_blockRefs {E : Env} {l es : List TxEntry} {te : TxEntry} {k : ℕ}
    (hl : Linked E (l ++ es)) (hte : te ∈ l) :
    (te.id, k) ∈ blockRefs l es ↔ ∃ te' ∈ es, (te.id, k) ∈ refsOf l te'.tx := by
  suffices h : ∀ pre, Linked E (l ++ pre ++ es) → ((te.id, k) ∈ blockRefs (l ++ pre) es ↔
      ∃ te' ∈ es, (te.id, k) ∈ refsOf l te'.tx) by
    have := h [] (by simpa using hl)
    simpa using this
  clear hl
  intro pre hl
  induction es generalizing pre with
  | nil => simp [blockRefs]
  | cons te₀ es ih =>
    have hpre := hl.of_append
    rw [List.append_cons, List.append_assoc l] at hl
    rw [blockRefs, List.mem_append, mem_refsOf_append hpre hte, List.append_assoc, ih _ hl]
    simp

/-- Clearing references leaves the index alone exactly when none of them was flagged. -/
theorem indexOf_mark_false {l : List TxEntry} (hnd : (l.map TxEntry.id).Nodup) (F : Flags)
    (R : List (Hash × ℕ)) :
    (indexOf (F.mark R false) l).transactions = (indexOf F l).transactions ↔
      ∀ te ∈ l, ∀ k < te.tx.vout.length, (te.id, k) ∈ R → F te.id k = false := by
  constructor
  · intro h te hte k hk hr
    obtain ⟨e, he, -, -, hflags⟩ := transactions_indexOf_mem F hnd hte
    obtain ⟨e', he', -, -, hflags'⟩ := transactions_indexOf_mem (F.mark R false) hnd hte
    rw [h, he] at he'
    rw [← Option.some.inj he', hflags] at hflags'
    have := congrArg (fun l => l[k]?) hflags'
    simpa [flagsOf, hk, Flags.mark, hr] using this
  · intro h
    rw [indexOf_congr fun te hte => ?_]
    refine List.map_congr_left fun k hk => ?_
    rw [List.mem_range] at hk
    by_cases hr : (te.id, k) ∈ R
    · rw [Flags.mark, if_pos hr, h te hte k hk hr]
    · rw [Flags.mark, if_neg hr]

theorem getElem?_flagsOf {F : Flags} {te : TxEntry} {k : ℕ} (hk : k < te.tx.vout.length) :
    (flagsOf F te)[k]? = some (F te.id k) := by
  simp [flagsOf, hk]

section Undo

variable {E : Env} {cps : Checkpoints} {t now : ℕ} {F : Flags} {chain : List ChainBlock}
  {n n' : Node} {c : ChainBlock}

/-- The transactions of a pushed block are those of the pool, but for signatures. -/
theorem Pushed.pool (hp : Pushed E now F chain n n' c) {te : TxEntry} (hte : te ∈ c.txs) :
    ∃ d, n.txs.pool.transactions.get te.id = some d ∧ d.tx.vin = te.tx.vin := by
  obtain ⟨-, tx, hknown, htx⟩ := hp.fetched.known te hte
  have hvin : te.tx.vin = tx.vin := by
    rw [htx]
    cases zoneAt n.checkpoints chain <;> rfl
  have hid : te.id ∉ (entriesOf E chain).map TxEntry.id := fun hmem =>
    hp.valid.txs.id_notMem te hte (by simp [hmem])
  obtain ⟨d, hd, rfl⟩ := pool_of_known hid hknown
  exact ⟨d, hd, hvin.symm⟩

/-- The block refers to no flagged output exactly when its pool transactions do not. -/
theorem spendsUnflagged_iff (hrep : Rep E F chain n.toChainStores)
    (hp : Pushed E now F chain n n' c) :
    SpendsUnflagged n c.bei.bl ↔ ∀ te ∈ entriesOf E chain, ∀ k < te.tx.vout.length,
      (te.id, k) ∈ blockRefs (entriesOf E chain) (c.entries E) → F te.id k = false := by
  have hlinked : Linked E (entriesOf E chain ++ c.entries E) := by
    have := hp.rep.txs.linked
    rw [entriesOf_append] at this
    simpa [entriesOf] using this
  have hnd := hrep.txs.linked.nodup_ids
  have houts : n.txs.index.outputs = outputsOf (entriesOf E chain) := by
    rw [hrep.txs.index, outputs_indexOf]
  obtain ⟨g₀, hg₀, -⟩ := vin_of_prevalidate hp.valid.header.miner
  have hcoinbase : refsOf (entriesOf E chain) (coinbaseEntry E c.bei).tx = [] := refsOf_gen hg₀
  constructor
  · intro h te hte k hk hr
    obtain ⟨te', hte', href⟩ := (mem_blockRefs hlinked hte).mp hr
    rcases List.mem_cons.mp hte' with rfl | hte'
    · simp [hcoinbase] at href
    obtain ⟨inp, g, hin, hg, hget⟩ := mem_directRefs.mp href
    obtain ⟨d, hd, hvin⟩ := hp.pool hte'
    obtain ⟨e, he, -, -, hflags⟩ := transactions_indexOf_mem F hnd hte
    have hid : te'.id ∈ c.bei.bl.txHashes := hp.valid.txIds ▸ List.mem_map_of_mem hte'
    have := h te'.id hid d hd inp (hvin ▸ hin) g hg (te.id, k) (by rw [houts]; exact hget) e
      (by rw [hrep.txs.index]; exact he)
    rw [hflags, getElem?_flagsOf hk] at this
    simpa using this
  · intro h id hid d hd inp hin g hg out hout e he
    rw [← hp.valid.txIds] at hid
    obtain ⟨te', hte', rfl⟩ := List.mem_map.mp hid
    obtain ⟨d', hd', hvin⟩ := hp.pool hte'
    obtain rfl := Option.some.inj (hd.symm.trans hd')
    rw [houts] at hout
    obtain ⟨te, hte, hidout, hk⟩ := exists_of_mem_outputsOf (List.mem_of_getElem? hout)
    obtain ⟨e', he', -, -, hflags⟩ := transactions_indexOf_mem F hnd hte
    rw [hrep.txs.index, ← hidout, he'] at he
    rw [← Option.some.inj he, hflags, getElem?_flagsOf hk]
    have href : (te.id, out.2) ∈ refsOf (entriesOf E chain) te'.tx := by
      refine mem_directRefs.mpr ⟨inp, g, hvin ▸ hin, hg, ?_⟩
      rw [hout, hidout]
    have := h te hte out.2 hk ((mem_blockRefs hlinked hte).mpr
      ⟨te', by simp [ChainBlock.entries, hte'], href⟩)
    simp [this]

end Undo

/-- The addendum of a valid block is readable when its coinbase pays to keys only. -/
theorem readable_iff {E : Env} {cps : Checkpoints} {t : ℕ} {chain : List ChainBlock} {c : ChainBlock}
    (h : ValidNext E cps t chain c) :
    Readable E c.bei.bl ↔ ∀ o ∈ c.bei.bl.minerTx.vout, o.isToKey = true := by
  have hparse : (parseAndValidateTxExtra E c.bei.bl.minerTx).isSome = true := h.coinbase.extra.1
  obtain ⟨info, hinfo⟩ := Option.isSome_iff_exists.mp hparse
  have hkey : ∀ o : TxOut, o.isToKey = true ↔ ∃ k, o.target = .toKey k := by
    intro o
    unfold TxOut.isToKey
    cases o.target <;> simp
  simp only [Readable, getBlockScratchpadAddendum, hinfo, addendumOuts_fst, hkey]

/-- Popping the block that a push added succeeds and restores every chain store exactly when its
coinbase pays to keys only and it spends no flagged output directly. -/
theorem pop_restores_iff (E : Env) (cps : Checkpoints) (n : Node) (now now' : ℕ)
    (bvc : BlockVerificationContext) (b : Block) (hreach : Reachable E cps n)
    (hpush : (handleBlockToMainChain E now bvc n b).1 = true) :
    ((popBlockFromBlockchain E now' (handleBlockToMainChain E now bvc n b).2.2).1 = true ∧
        Restored n (popBlockFromBlockchain E now' (handleBlockToMainChain E now bvc n b).2.2).2) ↔
      (∀ o ∈ b.minerTx.vout, o.isToKey = true) ∧ SpendsUnflagged n b := by
  obtain ⟨F, chain, hcp, ⟨t, hv⟩, hrep⟩ := chainInv_of_reachable hreach
  rcases handleBlockToMainChain_spec now b bvc hrep with ⟨-, -, c, rfl, hp⟩ | ⟨h, -⟩
  swap
  · rw [hpush] at h
    simp at h
  generalize (handleBlockToMainChain E now bvc n c.bei.bl).2.2 = n₁ at hp
  rw [← readable_iff hp.valid, spendsUnflagged_iff hrep hp]
  by_cases hread : Readable E c.bei.bl
  swap
  · rw [popBlockFromBlockchain_unreadable now' hp.rep hread]
    simp [hread]
  obtain ⟨n₂, hpop, hrep₂, -, -⟩ :=
    popBlockFromBlockchain_readable now' hp.rep hp.valid hv.ne_nil hread
  have hlinked : Linked E (entriesOf E chain ++ c.entries E) := by
    have := hp.rep.txs.linked
    rw [entriesOf_append] at this
    simpa [entriesOf] using this
  -- the flags the pop leaves are the old ones with the block's references cleared
  have hindex : n₂.txs.index =
      indexOf (F.mark (blockRefs (entriesOf E chain) (c.entries E)) false) (entriesOf E chain) := by
    have := (hrep₂.txs.congr fun te hte k => purged_flags (R := []) hlinked hte k).index
    simpa using this
  have hiff := indexOf_mark_false hrep.txs.linked.nodup_ids F
    (blockRefs (entriesOf E chain) (c.entries E))
  rw [hpop]
  simp only [hread, true_and]
  rw [← hiff, ← hindex, ← hrep.txs.index]
  refine ⟨fun h => h.transactions, fun h => ⟨?_, ?_, h, ?_, ?_, ?_, ?_⟩⟩
  · rw [hrep₂.blocks, hrep.blocks]
  · rw [hrep₂.blocksIndex, hrep.blocksIndex]
  · rw [hrep₂.txs.index, hrep.txs.index]
    exact spentKeys_indexOf_congr _ _ _
  · rw [hrep₂.txs.index, hrep.txs.index, outputs_indexOf, outputs_indexOf]
  · refine AliasDb.equiv_of_history hrep₂.txs.aliases.addrOK hrep.txs.aliases.addrOK fun name => ?_
    rw [hrep₂.txs.aliases.history, hrep.txs.aliases.history]
  · rw [hrep₂.scratchpad, hrep.scratchpad]

/-- A block with a spending transaction, pushed on a sample node and popped again. -/
theorem pop_restores_sampleBlock : ∃ n, Reachable sampleEnv ∅ n ∧
    let r := handleBlockToMainChain sampleEnv 0 {} n (spendingBlock n signedSpend 0)
    r.1 = true ∧ (popBlockFromBlockchain sampleEnv 0 r.2.2).1 = true ∧
      Restored n (popBlockFromBlockchain sampleEnv 0 r.2.2).2 := by
  let id := getTransactionHash sampleEnv signedSpend
  -- the transaction waits in the pool, and the output it spends is not flagged
  let flag (n : Node) : Option (Option Bool) :=
    ((n.txs.index.outputs 6000000000)[0]?).bind fun out =>
      (n.txs.index.transactions.get out.1).map fun e => e.spentFlags[out.2]?
  have hdec : ((sampleNode ∅ 10).bind fun n => run sampleEnv n [.transaction 0 signedSpend false]).map
      (fun n => ((handleBlockToMainChain sampleEnv 0 {} n (spendingBlock n signedSpend 0)).1,
        (n.txs.pool.transactions.get id).map (fun d => d.tx.vin), flag n)) =
      some (true, some signedSpend.vin, some (some false)) := by decide +kernel
  obtain ⟨n, hn, hview⟩ := Option.map_eq_some_iff.mp hdec
  obtain ⟨hpush, hview⟩ := Prod.mk.inj hview
  obtain ⟨hpool, hflag⟩ := Prod.mk.inj hview
  obtain ⟨n₁, hn₁, hrun⟩ := Option.bind_eq_some_iff.mp hn
  have hreach := (reachable_sampleNode hn₁).run hrun
  refine ⟨n, hreach, hpush, (pop_restores_iff sampleEnv ∅ n 0 0 {} _ hreach hpush).mpr ⟨?_, ?_⟩⟩
  · simp [spendingBlock, sampleBlock, sampleKey, TxOut.isToKey]
  · intro id' hid d hd inp hin g hg out hout e he
    obtain rfl := List.mem_singleton.mp hid
    obtain ⟨d', hd', hvin⟩ := Option.map_eq_some_iff.mp hpool
    obtain rfl := Option.some.inj (hd.symm.trans hd')
    rw [hvin] at hin
    obtain rfl := Txin.toKey.inj (List.mem_singleton.mp hin)
    obtain rfl := (List.cons.inj hg).1
    have hout' : (n.txs.index.outputs 6000000000)[0]? = some out := hout
    have hflag' : ((n.txs.index.outputs 6000000000)[0]?).bind (fun out =>
      (n.txs.index.transactions.get out.1).map fun e => e.spentFlags[out.2]?) = some (some false) := hflag
    rw [hout', Option.bind_some, he, Option.map_some, Option.some.injEq] at hflag'
    rw [hflag']
    simp

/-- A block whose coinbase pays to a script is pushed, and cannot be popped. -/
theorem pop_fails_scriptCoinbase : ¬∀ (E : Env) (cps : Checkpoints) (n : Node) (now now' : ℕ)
    (bvc : BlockVerificationContext) (b : Block), Reachable E cps n →
    (handleBlockToMainChain E now bvc n b).1 = true →
    (popBlockFromBlockchain E now' (handleBlockToMainChain E now bvc n b).2.2).1 = true ∧
      Restored n (popBlockFromBlockchain E now' (handleBlockToMainChain E now bvc n b).2.2).2 := by
  intro h
  have hdec : (sampleNode ∅ 2).map (fun n =>
      let r := handleBlockToMainChain sampleEnv 0 {} n
        (sampleBlock sampleEnv n.blocks 0 [] 0 (.toScript ⟨[], []⟩))
      (r.1, (popBlockFromBlockchain sampleEnv 0 r.2.2).1)) = some (true, false) := by decide +kernel
  obtain ⟨n, hn, hr⟩ := Option.map_eq_some_iff.mp hdec
  obtain ⟨hpush, hpop⟩ := Prod.mk.inj hr
  have hclaim := (h sampleEnv ∅ n 0 0 {} _ (reachable_sampleNode hn) hpush).1
  rw [hpop] at hclaim
  simp at hclaim

end Boolberry
