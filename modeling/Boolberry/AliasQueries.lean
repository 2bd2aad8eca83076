import Boolberry.AliasStores
import Boolberry.ExtraEntries
import Boolberry.Hashrate

/-!
# Counting aliases

`get_alias_info` and `get_all_aliases` pass over a name with an empty history, `get_aliases_count` counts
it. A history becomes empty when the block that registered the name is taken back.
-/

namespace Boolberry
open KeyValue

namespace AliasDb

/-- `get_alias_info`; `none` is a return of `false`. -/
def getAliasInfo (d : AliasDb) (name : Blob) : Option AliasInfoBase := (d.history name).getLast?

/-- `get_all_aliases`, with the entries in the order of `enumerate_items`. -/
def getAllAliases (items : List (Blob × List AliasInfoBase)) : List (Blob × AliasInfoBase) :=
  items.filterMap fun e => e.2.getLast?.map fun info => (e.1, info)

def getAliasesCount (d : AliasDb) : ℕ := d.aliases.keys.card

section

variable {d : AliasDb} {items : List (Blob × List AliasInfoBase)}

theorem mem_getAllAliases (h : d.aliases.Enumerates items) (name : Blob) (info : AliasInfoBase) :
    (name, info) ∈ getAllAliases items ↔ d.getAliasInfo name = some info := by
  rw [getAllAliases, List.mem_filterMap, getAliasInfo, history]
  constructor
  · rintro ⟨⟨name', hist⟩, hmem, heq⟩
    obtain ⟨info', hlast, hpair⟩ := Option.map_eq_some_iff.mp heq
    obtain ⟨rfl, rfl⟩ := Prod.mk.inj hpair
    rw [(h.2 name' hist).mp hmem, Option.getD_some]
    exact hlast
  · intro hlast
    cases hget : d.aliases.get name with
    | none =>
      rw [hget, Option.getD_none] at hlast
      cases hlast
    | some hist =>
      rw [hget, Option.getD_some] at hlast
      exact ⟨(name, hist), (h.2 name hist).mpr hget, by rw [hlast, Option.map_some]⟩

theorem getAllAliases_sublist (items : List (Blob × List AliasInfoBase)) :
    ((getAllAliases items).map Prod.fst).Sublist (items.map Prod.fst) := by
  induction items with
  | nil => exact List.Sublist.refl _
  | cons e items ih =>
    rw [getAllAliases, List.filterMap_cons]
    cases e.2.getLast? with
    | none => exact ih.cons _
    | some info => exact ih.cons_cons _

theorem nodup_getAllAliases (h : d.aliases.Enumerates items) : ((getAllAliases items).map Prod.fst).Nodup :=
  (getAllAliases_sublist items).nodup h.1

/-- The numbers agree exactly if no empty history is stored. -/
theorem count_eq_iff (h : d.aliases.Enumerates items) :
    d.getAliasesCount = (getAllAliases items).length ↔ ∀ name, d.aliases.get name ≠ some [] := by
  have hle := List.length_filterMap_le (fun e : Blob × List AliasInfoBase =>
    e.2.getLast?.map fun info => (e.1, info)) items
  have hlt := @List.length_filterMap_lt_length_iff_exists _ _ items
    fun e : Blob × List AliasInfoBase => e.2.getLast?.map fun info => (e.1, info)
  rw [getAliasesCount, h.card_keys]
  constructor
  · intro heq name hempty
    have hshort := hlt.mpr ⟨(name, []), (h.2 name []).mpr hempty, rfl⟩
    rw [getAllAliases] at heq
    omega
  · intro hall
    by_contra hne
    obtain ⟨⟨name, hist⟩, hmem, hnone⟩ := hlt.mp (lt_of_le_of_ne hle (Ne.symm hne))
    rw [Option.map_eq_none_iff, List.getLast?_eq_none_iff] at hnone
    exact hall name ((h.2 name hist).mp hmem |>.trans (congrArg some hnone))

end

/-- Every stored name, with a history or without, is one of `R`. -/
def NamesIn (R : Set Blob) (d : AliasDb) : Prop := ∀ name, (d.aliases.get name).isSome = true → name ∈ R

section

variable {R : Set Blob} {E : Env} {d d' : AliasDb} {ai : AliasInfo}

theorem isSome_of_history {name : Blob} (h : d.history name ≠ []) : (d.aliases.get name).isSome = true := by
  rw [history] at h
  cases hget : d.aliases.get name with
  | none =>
    rw [hget] at h
    exact absurd rfl h
  | some hist => rfl

theorem NamesIn.set (h : NamesIn R d) {name : Blob} (hname : name ∈ R) (hist : List AliasInfoBase)
    (m : Map AccountPublicAddress (Finset Blob)) : NamesIn R ⟨d.aliases.set name hist, m⟩ := by
  intro name' hget
  change ((d.aliases.set name hist).get name').isSome = true at hget
  rw [Map.get_set] at hget
  split_ifs at hget with heq
  · rw [heq]
    exact hname
  · exact h name' hget

theorem NamesIn.putAliasInfo (h : NamesIn R d) (hnew : ai.sign = nullSig → ai.aliasName ∈ R)
    (hput : d.putAliasInfo E ai = some d') : NamesIn R d' := by
  unfold AliasDb.putAliasInfo at hput
  split_ifs at hput with hname hsign hfree
  · rw [← Option.some.inj hput]
    exact h.set (hnew hsign) _ _
  · cases hlast : (d.history ai.aliasName).getLast? with
    | none => simp [hlast] at hput
    | some last =>
      have hne : d.history ai.aliasName ≠ [] := by
        intro hnil
        rw [hnil] at hlast
        cases hlast
      simp only [hlast] at hput
      split_ifs at hput
      rw [← Option.some.inj hput]
      exact h.set (h _ (isSome_of_history hne)) _ _

theorem NamesIn.popAliasInfo (h : NamesIn R d) (hpop : d.popAliasInfo ai = some d') : NamesIn R d' := by
  unfold AliasDb.popAliasInfo at hpop
  split_ifs at hpop with hname
  cases hlast : (d.history ai.aliasName).getLast? with
  | none => simp [hlast] at hpop
  | some last =>
    have hne : d.history ai.aliasName ≠ [] := by
      intro hnil
      rw [hnil] at hlast
      cases hlast
    simp only [hlast] at hpop
    split_ifs at hpop
    rw [← Option.some.inj hpop]
    exact h.set (h _ (isSome_of_history hne)) _ _

end

end AliasDb

open AliasDb

/-- The coinbase of the block registers the name. -/
def Registers (E : Env) (b : Block) (name : Blob) : Prop :=
  ∃ ai, aliasOfTx E b.minerTx = some ai ∧ ai.sign = nullSig ∧ ai.aliasName = name

/-- The names that blocks of `B` register. -/
def registered (E : Env) (B : Set Block) : Set Blob := {name | ∃ b ∈ B, Registers E b name}

section

variable {E : Env} {R : Set Blob}

theorem AliasDb.NamesIn.process {d d' : AliasDb} {tx : Transaction} (h : NamesIn R d)
    (hnew : ∀ ai, aliasOfTx E tx = some ai → ai.sign = nullSig → ai.aliasName ∈ R)
    (hd : processBlockchainTxExtra E d tx = some d') : NamesIn R d' := by
  rw [processBlockchainTxExtra_eq] at hd
  split_ifs at hd
  cases ha : aliasOfTx E tx with
  | none =>
    rw [ha] at hd
    rwa [← Option.some.inj hd]
  | some ai =>
    rw [ha] at hd
    exact h.putAliasInfo (hnew ai ha) hd

theorem AliasDb.NamesIn.unprocess {d d' : AliasDb} {tx : Transaction} (h : NamesIn R d)
    (hd : unprocessBlockchainTxExtra E d tx = some d') : NamesIn R d' := by
  unfold unprocessBlockchainTxExtra at hd
  split_ifs at hd
  · cases hp : parseAndValidateTxExtra E tx with
    | none => simp [hp] at hd
    | some ei =>
      simp only [hp] at hd
      split_ifs at hd
      · exact h.popAliasInfo hd
      · rwa [← Option.some.inj hd]
  · rwa [← Option.some.inj hd]

theorem AliasDb.NamesIn.addTransaction {s : TxState} {tx : Transaction} {txId : Hash} {blHeight : ℕ}
    (h : NamesIn R s.aliasDb) (hnew : ∀ ai, aliasOfTx E tx = some ai → ai.sign = nullSig → ai.aliasName ∈ R) :
    NamesIn R (left (addTransactionFromBlock E s tx txId blHeight)).aliasDb := by
  unfold addTransactionFromBlock
  cases hd : processBlockchainTxExtra E s.aliasDb tx with
  | none => exact h
  | some d =>
    have hput := h.process hnew hd
    have hundo : NamesIn R ((unprocessBlockchainTxExtra E d tx).getD d) := by
      cases hu : unprocessBlockchainTxExtra E d tx with
      | none => exact hput
      | some d' => exact hput.unprocess hu
    dsimp only
    cases s.index.addTransactionInputs tx.vin with
    | error index => exact hundo
    | ok index =>
      dsimp only
      cases index.transactions.get txId with
      | some _ => exact hundo
      | none => exact hput

theorem purgeFromIndex_aliasDb (s : TxState) (tx : Transaction) (txId : Hash) :
    (left (purgeFromIndex s tx txId)).aliasDb = s.aliasDb := by
  unfold purgeFromIndex
  cases popTransactionFromGlobalIndex tx txId s.index.outputs with
  | error outputs => rfl
  | ok outputs =>
    dsimp only
    split_ifs <;> rfl

theorem AliasDb.NamesIn.purgeTransaction (v : ChainView) {s : TxState} (txId : Hash) (h : NamesIn R s.aliasDb) :
    NamesIn R (left (purgeTransactionFromBlockchain v s txId)).aliasDb := by
  unfold purgeTransactionFromBlockchain
  cases s.index.transactions.get txId with
  | none => exact h
  | some tce =>
    dsimp only
    cases hu : unprocessBlockchainTxExtra v.env s.aliasDb tce.tx with
    | none => exact h
    | some d =>
      have hd := h.unprocess hu
      dsimp only
      split_ifs
      · rw [purgeFromIndex_aliasDb]
        exact hd
      · rw [purgeFromIndex_aliasDb]
        exact hd
      · exact hd

theorem AliasDb.NamesIn.purgeBlockData (v : ChainView) {s : TxState} (bl : Block) (count : ℕ)
    (h : NamesIn R s.aliasDb) : NamesIn R (purgeBlockDataFromBlockchain v s bl count).2.aliasDb := by
  unfold purgeBlockDataFromBlockchain
  split_ifs
  · exact h
  · dsimp only
    generalize (bl.txHashes.take count).reverse ++ [getTransactionHash v.env bl.minerTx] = ids
    have hfold : ∀ (ids : List Hash) (r : Bool × TxState), NamesIn R r.2.aliasDb →
        NamesIn R (ids.foldl (purgeStep v) r).2.aliasDb := by
      intro ids
      induction ids with
      | nil => exact fun _ hr => hr
      | cons txId ids ih =>
        intro r hr
        refine ih _ ?_
        have hstep := hr.purgeTransaction v txId
        unfold purgeStep
        cases hp : purgeTransactionFromBlockchain v r.2 txId with
        | ok s' =>
          rw [hp] at hstep
          exact hstep
        | error s' =>
          rw [hp] at hstep
          exact hstep
    exact hfold ids (true, s) h

/-- What comes out of the pool and passes the check of its inputs is no coinbase. -/
theorem aliasOfTx_of_checked {tx : Transaction} {s : TxIndex} {now height : ℕ} {zone : Bool} {k : ℕ}
    (h : TxIndex.checkTxInputs E s now height zone tx = some k) : aliasOfTx E tx = none := by
  have hnot : isCoinbase tx = false := by
    unfold isCoinbase
    split
    · rename_i g hvin
      rw [TxIndex.checkTxInputs, hvin] at h
      cases h
    · rfl
  rw [aliasOfTx, hnot]
  rfl

theorem AliasDb.NamesIn.processTransactions (v : ChainView) (ids : List Hash) {st : TxLoop}
    (h : NamesIn R st.state.aliasDb) :
    match processTransactions v ids st with
    | .ok st' => NamesIn R st'.state.aliasDb
    | .error f => NamesIn R f.state.aliasDb := by
  induction ids generalizing st with
  | nil => exact h
  | cons txId ids ih =>
    unfold Boolberry.processTransactions
    cases st.state.pool.takeTx v.env txId with
    | none => exact h
    | some r =>
      obtain ⟨d, pool⟩ := r
      dsimp only
      generalize (if v.zone then { d.tx with signatures := [] } else d.tx) = tx
      cases hcheck : TxIndex.checkTxInputs v.env st.state.index v.now v.blocks.length v.zone tx with
      | none => exact h
      | some k =>
        have hadd := @AliasDb.NamesIn.addTransaction v.env R { st.state with pool } tx txId v.blocks.length h
          fun ai ha => by
            rw [aliasOfTx_of_checked hcheck] at ha
            cases ha
        dsimp only
        cases hs : addTransactionFromBlock v.env { st.state with pool } tx txId v.blocks.length with
        | error s =>
          rw [hs] at hadd
          exact hadd
        | ok s =>
          rw [hs] at hadd
          exact @ih ⟨s, st.txProcessedCount + 1, st.feeSummary + d.fee, st.cumulativeBlockSize + d.blobSize⟩ hadd

theorem AliasDb.NamesIn.addBlockTransactions (now : ℕ) (bvc : BlockVerificationContext) {n : Node} {bl : Block}
    (diff : WideDifficulty) (h : NamesIn R n.txs.aliasDb) (hnew : ∀ name, Registers E bl name → name ∈ R) :
    NamesIn R (addBlockTransactions E now bvc n bl diff).2.2.txs.aliasDb := by
  have hcoinbase := @AliasDb.NamesIn.addTransaction E R n.txs bl.minerTx (getTransactionHash E bl.minerTx)
    n.blocks.length h fun ai ha hsign => hnew _ ⟨ai, ha, hsign, rfl⟩
  unfold Boolberry.addBlockTransactions
  dsimp only
  cases hs : addTransactionFromBlock E n.txs bl.minerTx (getTransactionHash E bl.minerTx) n.blocks.length with
  | error s =>
    rw [hs] at hcoinbase
    exact hcoinbase
  | ok s =>
    rw [hs] at hcoinbase
    have hloop := @AliasDb.NamesIn.processTransactions R (n.view E now) bl.txHashes
      ⟨s, 0, 0, getObjectBlobsize bl.minerTx⟩ hcoinbase
    dsimp only
    cases hp : Boolberry.processTransactions (n.view E now) bl.txHashes ⟨s, 0, 0, getObjectBlobsize bl.minerTx⟩ with
    | error f =>
      rw [hp] at hloop
      have hpurged := AliasDb.NamesIn.purgeBlockData (n.view E now) bl f.txProcessedCount hloop
      dsimp only
      split_ifs
      · rw [congrArg ChainStores.txs (addBlockAsInvalid_stores _ _ _).1]
        exact hpurged
      · exact hpurged
    | ok st =>
      rw [hp] at hloop
      have hpurged := AliasDb.NamesIn.purgeBlockData (n.view E now) bl st.txProcessedCount hloop
      dsimp only [finishBlock]
      split
      · exact hpurged
      · split
        · exact hpurged
        · exact hloop

theorem AliasDb.NamesIn.push (now : ℕ) (bvc : BlockVerificationContext) {n : Node} {bl : Block}
    (h : NamesIn R n.txs.aliasDb) (hnew : ∀ name, Registers E bl name → name ∈ R) :
    NamesIn R (handleBlockToMainChain E now bvc n bl).2.2.txs.aliasDb := by
  have htime : (checkBlockTimestampMain E now n bl).2.txs = n.txs :=
    congrArg ChainStores.txs (checkBlockTimestampMain_spec E now n bl).2.1
  unfold handleBlockToMainChain
  dsimp only
  generalize checkBlockTimestampMain E now n bl = r at htime
  obtain ⟨ok, n₁⟩ := r
  dsimp only at htime ⊢
  have h₁ : NamesIn R n₁.txs.aliasDb := by
    rw [htime]
    exact h
  split_ifs
  · exact h
  · exact h₁
  · exact h₁
  · exact h₁
  · exact h₁
  · exact h₁
  · exact AliasDb.NamesIn.addBlockTransactions now bvc _ h₁ hnew

theorem AliasDb.NamesIn.pop {now : ℕ} {n : Node} (h : NamesIn R n.txs.aliasDb) :
    NamesIn R (popBlockFromBlockchain E now n).2.txs.aliasDb := by
  unfold popBlockFromBlockchain
  split_ifs
  · exact h
  · cases n.blocks.getLast? with
    | none => exact h
    | some bei =>
      dsimp only
      have hpurged : ∀ n' : Node, n'.txs = n.txs → NamesIn R (purgeBlockDataFromBlockchain (n'.view E now) n.txs
          bei.bl bei.bl.txHashes.length).2.aliasDb :=
        fun n' _ => AliasDb.NamesIn.purgeBlockData (n'.view E now) bei.bl bei.bl.txHashes.length h
      split_ifs
      · exact h
      · exact hpurged _ rfl
      · exact hpurged _ rfl
      · exact hpurged _ rfl

end

/-- The stored names come from blocks of `B`, like all blocks of the node. -/
structure NamesFrom (E : Env) (B : Set Block) (n : Node) : Prop where
  blocks : BlocksFrom B n
  names : NamesIn (registered E B) n.txs.aliasDb

theorem namesFrom_alt (E : Env) (now : ℕ) (B : Set Block) :
    AltInvariant E now (NamesFrom E B) (· ∈ B) (· ∈ B) (fun _ => True) where
  push n bvc bl hn hbl :=
    ⟨(blocksFrom_alt E now B).push n bvc bl hn.blocks hbl, hn.names.push now bvc fun _ hname => ⟨bl, hbl, hname⟩⟩
  pop n s hn hs hlen := ⟨(blocksFrom_alt E now B).pop n s hn.blocks hs hlen, hn.names.pop⟩
  invalid n bei id hn := by
    refine ⟨(blocksFrom_alt E now B).invalid n bei id hn.blocks, ?_⟩
    rw [congrArg ChainStores.txs (addBlockAsInvalid_stores n bei id).1]
    exact hn.names
  erase n id hn := ⟨(blocksFrom_alt E now B).erase n id hn.blocks, hn.names⟩
  add bvc n b a hn hb hzone hchain hatt := by
    have hblocks := (blocksFrom_alt E now B).add bvc n b a hn.blocks hb hzone hchain hatt
    have heff := addAlternativeBlock_effect E bvc n b a
    split
    · rename_i r hr
      rw [hr] at heff hblocks
      refine ⟨hblocks, ?_⟩
      rw [congrArg ChainStores.txs heff.2.1]
      exact hn.names
    · rename_i r hr
      rw [hr] at heff hblocks
      refine ⟨⟨hblocks.1, ?_⟩, fun _ _ => trivial⟩
      rw [congrArg ChainStores.txs heff.1]
      exact hn.names
  main n s h bei hn hs hle hbei := (blocksFrom_alt E now B).main n s h bei hn.blocks hs hle hbei
  alt n id bei hn hget := hn.blocks.alts id bei hget

theorem setCheckpoints_aliasDb (n : Node) (cps : Checkpoints) :
    (setCheckpoints n cps).txs.aliasDb = n.txs.aliasDb := by
  unfold setCheckpoints pruneRingSignaturesIfNeed
  dsimp only
  split_ifs <;> rfl

theorem namesFrom_event {E : Env} {B : Set Block} {n n' : Node} {e : Event} (hn : NamesFrom E B n)
    (hb : ∀ now fuel bl, e = .block now fuel bl → bl ∈ B) (he : e.apply E n = some n') : NamesFrom E B n' := by
  cases e with
  | block now fuel bl =>
    obtain ⟨r, hr, rfl⟩ := Option.map_eq_some_iff.mp he
    exact (namesFrom_alt E now B).addNewBlock hn (fun _ => hb now fuel bl rfl) (fun _ => hb now fuel bl rfl) hr
  | transaction now tx kept =>
    refine ⟨blocksFrom_event hn.blocks hb he, ?_⟩
    obtain rfl := Option.some.inj he
    unfold handleIncomingTx addNewTx
    split_ifs <;> exact hn.names
  | removeStuck now order =>
    refine ⟨blocksFrom_event hn.blocks hb he, ?_⟩
    obtain rfl := Option.some.inj he
    exact hn.names
  | pruneAltBlocks =>
    refine ⟨blocksFrom_event hn.blocks hb he, ?_⟩
    obtain rfl := Option.some.inj he
    exact hn.names

/-- Whatever name is stored after a run, a block of the run registered it. -/
theorem namesFrom_run {E : Env} {cps : Checkpoints} {now : ℕ} {n₀ n : Node} {events : List Event}
    (hinit : initNode E now cps = some n₀) (hrun : run E n₀ events = some n) : NamesFrom E (blocksIn events) n := by
  have hempty : NamesFrom E (blocksIn events) Node.empty := by
    refine ⟨⟨fun bei h => absurd h List.not_mem_nil, fun id bei h => ?_⟩, fun name h => ?_⟩
    · rw [Node.empty, Map.get_empty] at h
      cases h
    · rw [Node.empty, Map.get_empty] at h
      cases h
  have hgenesis : generateGenesisBlock ∈ blocksIn events := Set.mem_insert _ _
  have hstart : NamesFrom E (blocksIn events) n₀ := by
    refine ⟨blocksFrom_start hinit, ?_⟩
    unfold initNode at hinit
    cases hadd : addNewBlock E now 1 {} Node.empty generateGenesisBlock with
    | none => simp [hadd] at hinit
    | some r =>
      simp only [hadd, Option.ite_none_right_eq_some, Option.some_inj] at hinit
      rw [← hinit.2, setCheckpoints_aliasDb]
      exact ((namesFrom_alt E now _).addNewBlock hempty (fun _ => hgenesis) (fun _ => hgenesis) hadd).names
  refine run_induction (Q := fun e => ∀ now fuel bl, e = .block now fuel bl → bl ∈ blocksIn events)
    (fun _ _ _ hn hq he => namesFrom_event hn hq he) hstart ?_ hrun
  rintro e he now' fuel bl rfl
  exact Set.mem_insert_of_mem _ ⟨now', fuel, he⟩

theorem aliasOfTx_of_not_coinbase {E : Env} {tx : Transaction} (h : isCoinbase tx = false) : aliasOfTx E tx = none := by
  rw [aliasOfTx, h]
  rfl

theorem exists_registration {E : Env} {l : List TxEntry} (hl : Linked E l) {name : Blob}
    (h : historyOf E l name ≠ []) :
    ∃ te ∈ l, ∃ ai, aliasOfTx E te.tx = some ai ∧ ai.sign = nullSig ∧ ai.aliasName = name := by
  induction hl with
  | nil => exact absurd rfl h
  | @snoc l te hl hadd ih =>
    by_cases hbefore : historyOf E l name = []
    · rw [historyOf_append, hbefore, List.nil_append] at h
      cases ha : aliasOfTx E te.tx with
      | none =>
        rw [ha] at h
        exact absurd rfl h
      | some ai =>
        simp only [ha, ne_eq, ite_eq_right_iff, not_forall] at h
        obtain ⟨hname, -⟩ := h
        have hallowed := hadd.extra.2 ai ha
        rw [hname, hbefore, AliasDb.Allowed] at hallowed
        refine ⟨te, List.mem_append_right _ (List.mem_singleton_self te), ai, ha, ?_, hname⟩
        by_contra hsign
        rw [if_neg hsign] at hallowed
        obtain ⟨last, hlast, -⟩ := hallowed
        cases hlast
    · obtain ⟨te', hmem, hte⟩ := ih hbefore
      exact ⟨te', List.mem_append_left _ hmem, hte⟩

theorem ChainInv.history_ne_nil {E : Env} {cps : Checkpoints} {n : Node} (h : ChainInv E cps n) (name : Blob) :
    n.txs.aliasDb.history name ≠ [] ↔ ∃ bei ∈ n.blocks, Registers E bei.bl name := by
  obtain ⟨F, chain, -, ⟨t, hv⟩, hrep⟩ := h
  rw [hrep.txs.aliases.history, hrep.blocks]
  constructor
  · intro hne
    obtain ⟨te, hmem, ai, ha, hreg⟩ := exists_registration hv.linked hne
    obtain ⟨c, hc, hte⟩ := List.mem_flatMap.mp hmem
    refine ⟨c.bei, List.mem_map_of_mem hc, ai, ?_, hreg⟩
    rcases List.mem_cons.mp hte with rfl | hte
    · exact ha
    · -- the other transactions of a block are no coinbases
      obtain ⟨i, hi⟩ := List.mem_iff_getElem?.mp hc
      obtain ⟨_, hnext, -⟩ := hv.at hi
      rw [aliasOfTx_of_not_coinbase (hnext.txs.not_coinbase te hte)] at ha
      cases ha
  · rintro ⟨bei, hmem, ai, ha, -, rfl⟩
    obtain ⟨c, hc, rfl⟩ := List.mem_map.mp hmem
    exact historyOf_ne_nil hc ha

/-- The three queries speak of the same names, those that blocks of the main chain registered. -/
structure AliasesAgree (E : Env) (n : Node) (items : List (Blob × List AliasInfoBase)) : Prop where
  count : n.txs.aliasDb.getAliasesCount = (getAllAliases items).length
  nodup : ((getAllAliases items).map Prod.fst).Nodup
  listed : ∀ name info, (name, info) ∈ getAllAliases items ↔ n.txs.aliasDb.getAliasInfo name = some info
  onChain : ∀ name, (n.txs.aliasDb.getAliasInfo name).isSome = true ↔ ∃ bei ∈ n.blocks, Registers E bei.bl name

/-- In every state that a run reaches, the queries agree exactly if each stored name is still registered on the
main chain; so they do where that holds of each name that a block of the run registered. -/
theorem aliases_agree_iff (E : Env) (cps : Checkpoints) (now : ℕ) (n₀ n : Node) (events : List Event)
    (items : List (Blob × List AliasInfoBase)) (hinit : initNode E now cps = some n₀)
    (hrun : run E n₀ events = some n) (henum : n.txs.aliasDb.aliases.Enumerates items) :
    (AliasesAgree E n items ↔ ∀ name, (n.txs.aliasDb.aliases.get name).isSome = true →
      ∃ bei ∈ n.blocks, Registers E bei.bl name) ∧
    ((∀ name ∈ registered E (blocksIn events), ∃ bei ∈ n.blocks, Registers E bei.bl name) →
      AliasesAgree E n items) := by
  have hlive := (chainInv_of_reachable ⟨now, n₀, events, hinit, hrun⟩).history_ne_nil
  have hcount : (∀ name, n.txs.aliasDb.aliases.get name ≠ some []) ↔
      ∀ name, (n.txs.aliasDb.aliases.get name).isSome = true → ∃ bei ∈ n.blocks, Registers E bei.bl name := by
    refine forall_congr' fun name => ?_
    rw [← hlive, AliasDb.history]
    cases n.txs.aliasDb.aliases.get name with
    | none => simp
    | some hist => simp
  have hinfo : ∀ name, (n.txs.aliasDb.getAliasInfo name).isSome = true ↔ ∃ bei ∈ n.blocks, Registers E bei.bl name := by
    intro name
    rw [← hlive, AliasDb.getAliasInfo]
    simp
  have hiff : AliasesAgree E n items ↔ ∀ name, (n.txs.aliasDb.aliases.get name).isSome = true →
      ∃ bei ∈ n.blocks, Registers E bei.bl name := by
    rw [← hcount, ← count_eq_iff henum]
    exact ⟨fun h => h.count, fun h => ⟨h, nodup_getAllAliases henum, mem_getAllAliases henum, hinfo⟩⟩
  exact ⟨hiff, fun hall => hiff.mpr fun name hname => hall name ((namesFrom_run hinit hrun).names name hname)⟩

/-- The next block, whose coinbase registers a name. -/
def registeringBlock : List Hash → Node → Block := aliasBlock (ExtraReader.sampleAliasInfo [7] nullSig)

/-- On the main chain the block and its name are counted. -/
theorem aliases_agree_on_chain : ∃ n, Reachable sampleEnv ∅ n ∧ n.txs.aliasDb.getAliasesCount = 2 ∧
    ∀ items, n.txs.aliasDb.aliases.Enumerates items → AliasesAgree sampleEnv n items := by
  have hdec : (initNode sampleEnv 0 ∅).bind (fun n₀ => (run sampleEnv n₀ [.block 0 1 (registeringBlock [] n₀)]).map fun n =>
      decide (n.txs.aliasDb.getAliasesCount = 2) &&
        decide (n.blocks.map BlockExtendedInfo.bl = [generateGenesisBlock, registeringBlock [] n₀])) = some true := by
    decide +kernel
  obtain ⟨n₀, hinit, hdec⟩ := Option.bind_eq_some_iff.mp hdec
  obtain ⟨n, hrun, hdec⟩ := Option.map_eq_some_iff.mp hdec
  simp only [Bool.and_eq_true, decide_eq_true_eq] at hdec
  refine ⟨n, ⟨0, n₀, _, hinit, hrun⟩, hdec.1, fun items henum =>
    (aliases_agree_iff sampleEnv ∅ 0 n₀ n _ items hinit hrun henum).2 ?_⟩
  rintro name ⟨b, hb, hreg⟩
  have hmem : b ∈ n.blocks.map BlockExtendedInfo.bl := by
    rw [hdec.2]
    exact mem_blocksIn_map 0 1 hb
  obtain ⟨bei, hbei, rfl⟩ := List.mem_map.mp hmem
  exact ⟨bei, hbei, hreg⟩

/-- When a transaction of the block is unknown, the name stays behind with nothing under it. -/
theorem refused_alias_counted : ¬∀ (E : Env) (cps : Checkpoints) (n : Node) (items : List (Blob × List AliasInfoBase)),
    Reachable E cps n → n.txs.aliasDb.aliases.Enumerates items → AliasesAgree E n items := by
  intro hall
  have hdec : (initNode sampleEnv 0 ∅).bind (fun n₀ => (run sampleEnv n₀ [.block 0 1 (registeringBlock [1] n₀)]).map fun n =>
      decide (n.txs.aliasDb.aliases.get (ExtraReader.sampleAliasInfo [7] nullSig).aliasName = some [])) =
      some true := by decide +kernel
  obtain ⟨n₀, hinit, hdec⟩ := Option.bind_eq_some_iff.mp hdec
  obtain ⟨n, hrun, hdec⟩ := Option.map_eq_some_iff.mp hdec
  obtain ⟨items, henum⟩ := Map.exists_enumerates n.txs.aliasDb.aliases
  have hagree := hall sampleEnv ∅ n items ⟨0, n₀, _, hinit, hrun⟩ henum
  exact (count_eq_iff henum).mp hagree.count _ (of_decide_eq_true hdec)

end Boolberry
