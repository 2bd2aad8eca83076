import Boolberry.SpentFlags

/-!
# Spent keys and spent flags in every reachable state

The two containers that keep an output from being spent twice, as statements
about the stored transactions of a node.
-/

namespace Boolberry
open KeyValue

/-- The key images of the main chain, in chain order. -/
def chainKeyImages (E : Env) (n : Node) : List KeyImage :=
  (chainTxIds E n.blocks).flatMap fun id => match n.txs.index.transactions.get id with
    | none => []
    | some e => keyImages e.tx

/-- Some input on the main chain with a single offset refers to the output. -/
def SpentDirectly (E : Env) (n : Node) (out : Hash × ℕ) : Prop :=
  ∃ id ∈ chainTxIds E n.blocks, ∃ e, n.txs.index.transactions.get id = some e ∧
    ∃ inp g, Txin.toKey inp ∈ e.tx.vin ∧ inp.keyOffsets = [g] ∧
      (n.txs.index.outputs inp.amount)[g.toNat]? = some out

/-- The spent keys and the spent flags of a node are those of its main chain. -/
structure SpentOK (E : Env) (n : Node) : Prop where
  spentKeys : ∀ k, (n.txs.index.spentKeys.get k).isSome = true ↔ k ∈ chainKeyImages E n
  nodup : (chainKeyImages E n).Nodup
  spentFlags : ∀ id e, n.txs.index.transactions.get id = some e → ∀ k < e.tx.vout.length,
    (e.spentFlags[k]? = some true ↔ SpentDirectly E n (id, k))

section Chain

variable {E : Env} {cps : Checkpoints} {t : ℕ} {F : Flags} {chain : List ChainBlock} {n : Node}

theorem chainKeyImages_eq (hv : ValidChain E cps t chain) (hrep : Rep E F chain n.toChainStores) :
    chainKeyImages E n = kimagesOf (entriesOf E chain) := by
  unfold chainKeyImages kimagesOf
  rw [hrep.blocks, chainTxIds_blocksOf hv, List.flatMap_map]
  refine List.flatMap_congr fun te hte => ?_
  obtain ⟨e, he, htx, -⟩ := transactions_indexOf_mem F hrep.txs.linked.nodup_ids hte
  rw [hrep.txs.index, he, ← htx]

/-- A reference can be resolved at the end of the list as well as where it was made. -/
theorem mem_blockRefs_nil {l : List TxEntry} (hl : Linked E l) {r : Hash × ℕ} :
    r ∈ blockRefs [] l ↔ ∃ te ∈ l, r ∈ refsOf l te.tx := by
  induction hl with
  | nil => simp [blockRefs]
  | @snoc l te hl ha ih =>
    have hold : ∀ te' ∈ l, refsOf (l ++ [te]) te'.tx = refsOf l te'.tx := by
      intro te' hte'
      obtain ⟨l₁, l₂, rfl⟩ := List.append_of_mem hte'
      exact directRefs_append fun i hi => resolves_append (hl.addable.resolves i hi)
    have hnew : refsOf (l ++ [te]) te.tx = refsOf l te.tx := directRefs_append ha.resolves
    rw [blockRefs_append_singleton, List.nil_append, List.mem_append, ih]
    constructor
    · rintro (⟨te', hte', hr⟩ | hr)
      · exact ⟨te', by simp [hte'], by rw [hold te' hte']; exact hr⟩
      · exact ⟨te, by simp, by rw [hnew]; exact hr⟩
    · rintro ⟨te', hte', hr⟩
      rcases List.mem_append.mp hte' with hmem | hmem
      · exact Or.inl ⟨te', hmem, hold te' hmem ▸ hr⟩
      · obtain rfl := List.mem_singleton.mp hmem
        exact Or.inr (hnew ▸ hr)

theorem spentDirectly_iff (hv : ValidChain E cps t chain) (hrep : Rep E F chain n.toChainStores)
    (r : Hash × ℕ) : SpentDirectly E n r ↔ r ∈ blockRefs [] (entriesOf E chain) := by
  have hl := hrep.txs.linked
  have houts : n.txs.index.outputs = outputsOf (entriesOf E chain) := by
    rw [hrep.txs.index, outputs_indexOf]
  unfold SpentDirectly
  rw [mem_blockRefs_nil hl, hrep.blocks, chainTxIds_blocksOf hv]
  constructor
  · rintro ⟨id, hid, e, he, inp, g, hin, hg, hget⟩
    obtain ⟨te, hte, rfl⟩ := List.mem_map.mp hid
    obtain ⟨e', he', htx, -⟩ := transactions_indexOf_mem F hl.nodup_ids hte
    rw [hrep.txs.index, he'] at he
    obtain rfl := Option.some.inj he
    exact ⟨te, hte, mem_directRefs.mpr ⟨inp, g, htx ▸ hin, hg, houts ▸ hget⟩⟩
  · rintro ⟨te, hte, hr⟩
    obtain ⟨inp, g, hin, hg, hget⟩ := mem_directRefs.mp hr
    obtain ⟨e, he, htx, -⟩ := transactions_indexOf_mem F hl.nodup_ids hte
    exact ⟨te.id, List.mem_map_of_mem hte, e, by rw [hrep.txs.index]; exact he, inp, g,
      by rw [htx]; exact hin, hg, by rw [houts]; exact hget⟩

end Chain

theorem Exact.spentOK {E : Env} {cps : Checkpoints} {T : Set TransactionPrefix} {t : ℕ}
    {chain : List ChainBlock} {n : Node} (h : Exact E cps T t chain n) : SpentOK E n := by
  have hl := h.rep.txs.linked
  refine ⟨fun k => ?_, ?_, fun id e he k hk => ?_⟩
  · rw [chainKeyImages_eq h.valid h.rep, h.rep.txs.index, spentKeys_indexOf]
    split_ifs with hk <;> simp [hk]
  · rw [chainKeyImages_eq h.valid h.rep]
    exact hl.nodup_kimages
  · rw [spentDirectly_iff h.valid h.rep]
    rw [h.rep.txs.index] at he
    obtain ⟨l₁, te, l₂, -, rfl, rfl⟩ := transactions_indexOf_some hl.nodup_ids he
    rw [getElem?_flagsOf hk]
    simp [exactFlags]

/-- In every run of transactions that spend no output twice by a single offset, spent keys and spent
flags are those of the main chain. -/
theorem spentOK_of_run (E : Env) (cps : Checkpoints) (T : Set TransactionPrefix) (now : ℕ)
    (n₀ n : Node) (events : List Event) (hT : SpendsOnce E cps T)
    (hinit : initNode E now cps = some n₀) (hq : ∀ e ∈ events, e.BringsFrom T)
    (hrun : run E n₀ events = some n) : SpentOK E n := by
  obtain ⟨t, chain, h⟩ := exact_of_run hT hinit hq hrun
  exact h.spentOK

/-- Checkpoints that no sample chain reaches: all of it is in the zone. -/
def sampleCheckpoints : Checkpoints := (∅ : Checkpoints).set 100 0

theorem exists_toKey_of_mem_blockRefs {l : List TxEntry} {r : Hash × ℕ} (h : r ∈ blockRefs [] l) :
    ∃ te ∈ l, ∃ inp, Txin.toKey inp ∈ te.tx.vin := by
  induction l using List.reverseRecOn with
  | nil => simp [blockRefs] at h
  | append_singleton l te ih =>
    rw [blockRefs_append_singleton, List.mem_append] at h
    rcases h with h | h
    · obtain ⟨te', hte', hin⟩ := ih h
      exact ⟨te', by simp [hte'], hin⟩
    · obtain ⟨inp, g, hin, -⟩ := mem_directRefs.mp h
      exact ⟨te, by simp, inp, hin⟩

theorem mem_keyImages {tx : Transaction} {inp : TxinToKey} (h : Txin.toKey inp ∈ tx.vin) :
    inp.kImage ∈ keyImages tx :=
  List.mem_map_of_mem (List.mem_filterMap.mpr ⟨_, h, rfl⟩)

theorem not_coinbase_of_toKey {tx : Transaction} {inp : TxinToKey} (h : Txin.toKey inp ∈ tx.vin) :
    isCoinbase tx = false := by
  unfold isCoinbase
  split
  · rename_i g hg
    simp [hg] at h
  · rfl

/-- A single transaction cannot be on the chain twice, so it spends no output twice. -/
theorem spendsOnce_singleton (E : Env) (cps : Checkpoints) (p : TransactionPrefix) :
    SpendsOnce E cps {p} := by
  intro t chain b es te hv hm hb ha hok hes hte hck r hr hmem
  obtain ⟨te', hte', inp', hin'⟩ := exists_toKey_of_mem_blockRefs hmem
  have hp' : te'.tx.toTransactionPrefix = p := by
    have hc := not_coinbase_of_toKey hin'
    rcases List.mem_append.mp hte' with hte' | hte'
    · rcases List.mem_append.mp hte' with hte' | hte'
      · exact hm te' hte' hc
      · rw [List.mem_singleton.mp hte'] at hc
        simp [hb] at hc
    · exact hes te' hte' hc
  -- the key image of its input is taken already
  have hvin : te.tx.vin = te'.tx.vin := by
    rw [Set.mem_singleton_iff.mp hte, hp']
  obtain ⟨m, hm'⟩ := Option.isSome_iff_exists.mp hck
  have hfree := (checkTxInputsGo_some hm').2 inp'.kImage
    (by rw [← keyImages_eq]; exact mem_keyImages (hvin ▸ hin'))
  rw [spentKeys_indexOf, if_pos] at hfree
  · simp at hfree
  · exact List.mem_flatMap.mpr ⟨te', hte', mem_keyImages hin'⟩

/-- A run in which one transaction spends an output of the genesis block. -/
theorem spentOK_sampleSpend : ∃ n₀ n events, initNode sampleEnv 0 sampleCheckpoints = some n₀ ∧
    run sampleEnv n₀ events = some n ∧ n.blocks.length = 12 ∧ SpentOK sampleEnv n := by
  have hdec : ((sampleNode sampleCheckpoints 10).bind (spend (sampleSpend 1) 0)).map
      (fun n => n.blocks.length) = some 12 := by decide +kernel
  obtain ⟨n, hn, hlen⟩ := Option.map_eq_some_iff.mp hdec
  obtain ⟨n₁, hn₁, hspend⟩ := Option.bind_eq_some_iff.mp hn
  obtain ⟨n₀, hinit, hgrow⟩ := Option.bind_eq_some_iff.mp hn₁
  obtain ⟨events, hrun, hev⟩ := growBy_run hgrow
  have hrun' : run sampleEnv n₀ (events ++ _) = some n := (run_append hrun _).trans hspend
  refine ⟨n₀, n, _, hinit, hrun', hlen, spentOK_of_run sampleEnv sampleCheckpoints
    {(sampleSpend 1).toTransactionPrefix} 0 n₀ n _ (spendsOnce_singleton _ _ _) hinit
    (fun e he => ?_) hrun'⟩
  rcases List.mem_append.mp he with he | he
  · have := hev e he
    cases e <;> simp_all [Event.isBlock, Event.BringsFrom]
  · rcases List.mem_cons.mp he with rfl | he
    · rfl
    · rw [List.mem_singleton.mp he]
      trivial

/-- Two transactions with different key images spend one output in the checkpoint zone; the block
with the second is refused for its reward, and its purge clears the flag the first had set. -/
theorem spentFlags_lost : ¬∀ (E : Env) (cps : Checkpoints) (n : Node), Reachable E cps n →
    SpentOK E n := by
  intro h
  let gid := getTransactionHash sampleEnv genesisCoinbaseTx
  let id := getTransactionHash sampleEnv (sampleSpend 1)
  -- the flag of the genesis output, and the transaction on the chain that refers to it
  let flag (n : Node) : Option (ℕ × Option Bool) :=
    (n.txs.index.transactions.get gid).map fun e => (e.tx.vout.length, e.spentFlags[3]?)
  let vin (n : Node) : Option (List Txin) :=
    (n.txs.index.transactions.get id).map fun e => e.tx.vin
  have hdec : (((sampleNode sampleCheckpoints 10).bind (spend (sampleSpend 1) 0)).bind
      (spend (sampleSpend 2) 1)).map (fun n => decide (flag n = some (8, some false)) &&
        decide (id ∈ chainTxIds sampleEnv n.blocks) && decide (vin n = some (sampleSpend 1).vin) &&
        decide ((n.txs.index.outputs 6000000000)[0]? = some (gid, 3))) = some true := by
    decide +kernel
  obtain ⟨n, hn, hview⟩ := Option.map_eq_some_iff.mp hdec
  simp only [Bool.and_eq_true, decide_eq_true_eq] at hview
  obtain ⟨⟨⟨hgenesis, hmem⟩, hvin⟩, hout⟩ := hview
  obtain ⟨n₂, hn₂, hspend₂⟩ := Option.bind_eq_some_iff.mp hn
  obtain ⟨n₁, hn₁, hspend₁⟩ := Option.bind_eq_some_iff.mp hn₂
  have hreach : Reachable sampleEnv sampleCheckpoints n :=
    ((reachable_sampleNode hn₁).run hspend₁).run hspend₂
  obtain ⟨e, he, hflag⟩ := Option.map_eq_some_iff.mp hgenesis
  obtain ⟨hlen, hflag⟩ := Prod.mk.inj hflag
  obtain ⟨e', he', hvin'⟩ := Option.map_eq_some_iff.mp hvin
  have hspent : SpentDirectly sampleEnv n (gid, 3) :=
    ⟨id, hmem, e', he', ⟨6000000000, [0], 1⟩, 0, by rw [hvin']; simp [sampleSpend],
      rfl, hout⟩
  have := ((h sampleEnv sampleCheckpoints n hreach).spentFlags gid e he 3 (by omega)).mpr hspent
  rw [hflag] at this
  simp at this

end Boolberry
