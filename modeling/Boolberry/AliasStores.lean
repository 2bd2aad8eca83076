import Boolberry.ExtraEntries
import Boolberry.MainChain

/-!
# The alias stores in every reachable state

`m_db_addr_to_alias` is the inverse image of `m_db_aliases` through the last entry
of each history, also between the pushes and pops of one call. What a coinbase has
put can therefore be popped again.
-/

namespace Boolberry
open KeyValue

namespace AliasDb

/-- For each address the names whose history is not empty and ends there, and no empty set. -/
def Mirrored (d : AliasDb) : Prop :=
  (∀ a, d.addrToAlias.get a ≠ some ∅) ∧
    ∀ a name, name ∈ (d.addrToAlias.get a).getD ∅ ↔
      ∃ last, (d.history name).getLast? = some last ∧ last.address = a

theorem AddrOK.mirrored {d : AliasDb} (h : d.AddrOK) : d.Mirrored := ⟨h.nonempty, h.mem_names⟩

/-- A registration or update that was accepted can be popped. -/
theorem AddrOK.put_pop {E : Env} {d d' : AliasDb} {ai : AliasInfo} (h : d.AddrOK)
    (hput : d.putAliasInfo E ai = some d') :
    d'.AddrOK ∧ ∃ d'', d'.popAliasInfo ai = some d'' ∧ Equiv d'' d := by
  obtain ⟨hok, hhist⟩ := putAliasInfo_spec h hput
  have hname : ai.aliasName ≠ [] := by
    refine ((putAliasInfo_isSome E d ai).mp ?_).1
    rw [hput]
    rfl
  have hne : d'.history ai.aliasName ≠ [] := by
    rw [hhist, if_pos rfl]
    simp
  obtain ⟨d'', hpop, hok', hhist'⟩ := popAliasInfo_spec hok hname hne
  refine ⟨hok, d'', hpop, equiv_of_history hok' h fun name => ?_⟩
  rw [hhist', hhist]
  split_ifs <;> simp

end AliasDb

/-- One push or pop, with any block at any time. -/
def Moved (E : Env) (n n' : Node) : Prop :=
  ∃ now, (∃ bvc bl, n' = (handleBlockToMainChain E now bvc n bl).2.2) ∨
    n' = (popBlockFromBlockchain E now n).2

theorem ChainInv.moved {E : Env} {cps : Checkpoints} {n n' : Node} (h : ChainInv E cps n)
    (hm : Relation.ReflTransGen (Moved E) n n') : ChainInv E cps n' := by
  induction hm with
  | refl => exact h
  | tail _ hstep ih =>
    rcases hstep with ⟨now, ⟨bvc, bl, rfl⟩ | rfl⟩
    · exact (chainInv_store E cps now).push _ bvc bl ih
    · exact (chainInv_store E cps now).pop _ ih

theorem historyOf_ne_nil {E : Env} {chain : List ChainBlock} {c : ChainBlock} {ai : AliasInfo}
    (hc : c ∈ chain) (ha : aliasOfTx E c.bei.bl.minerTx = some ai) :
    historyOf E (entriesOf E chain) ai.aliasName ≠ [] := by
  have hmem : coinbaseEntry E c.bei ∈ entriesOf E chain :=
    List.mem_flatMap.mpr ⟨c, hc, List.mem_cons_self ..⟩
  have hai : ai ∈ (entriesOf E chain).filterMap fun te => aliasOfTx E te.tx :=
    List.mem_filterMap.mpr ⟨_, hmem, ha⟩
  have hname : ai ∈ ((entriesOf E chain).filterMap fun te => aliasOfTx E te.tx).filter
      fun a => a.aliasName = ai.aliasName := by
    simpa using hai
  exact List.ne_nil_of_mem (List.mem_map_of_mem hname)

/-- In every reachable state, and between the pushes and pops of a call on it, the two alias stores
mirror each other, the alias of the top block can be popped, and so can whatever the next coinbase
puts. -/
theorem aliasStores_of_reachable (E : Env) (cps : Checkpoints) (n n' : Node)
    (h : Reachable E cps n) (hm : Relation.ReflTransGen (Moved E) n n') :
    n'.txs.aliasDb.Mirrored ∧
      (∀ bei ei, n'.blocks.getLast? = some bei →
        parseAndValidateTxExtra E bei.bl.minerTx = some ei → ei.aliasInfo.aliasName ≠ [] →
        (n'.txs.aliasDb.popAliasInfo ei.aliasInfo).isSome = true) ∧
      ∀ ai d, n'.txs.aliasDb.putAliasInfo E ai = some d →
        d.Mirrored ∧ ∃ d', d.popAliasInfo ai = some d' ∧ AliasDb.Equiv d' n'.txs.aliasDb := by
  obtain ⟨F, chain, -, ⟨t, hv⟩, hrep⟩ := (chainInv_of_reachable h).moved hm
  have hok := hrep.txs.aliases.addrOK
  refine ⟨hok.mirrored, fun bei ei hlast hp hname => ?_, fun ai d hput => ?_⟩
  · obtain ⟨i, hi⟩ := List.mem_iff_getElem?.mp (List.mem_of_getLast? hlast)
    obtain ⟨c, hc, rfl⟩ : ∃ c, chain[i]? = some c ∧ c.bei = bei := by
      rw [hrep.blocks] at hi
      simpa [blocksOf] using hi
    obtain ⟨_, hn, -⟩ := hv.at hc
    obtain ⟨g, hg, -⟩ := vin_of_prevalidate hn.header.miner
    have ha : aliasOfTx E c.bei.bl.minerTx = some ei.aliasInfo := by
      simp only [aliasOfTx, isCoinbase_of_gen hg, if_true, hp, hname, if_false]
    have hne : n'.txs.aliasDb.history ei.aliasInfo.aliasName ≠ [] := by
      rw [hrep.txs.aliases.history]
      exact historyOf_ne_nil (List.mem_of_getElem? hc) ha
    obtain ⟨d', hpop, -⟩ := AliasDb.popAliasInfo_spec hok hname hne
    rw [hpop]
    rfl
  · obtain ⟨hok', d', hpop, heq⟩ := hok.put_pop hput
    exact ⟨hok'.mirrored, d', hpop, heq⟩

/-- The next block, whose coinbase has an alias entry. -/
def aliasBlock (alinfo : AliasInfo) (txHashes : List Hash) (n : Node) : Block :=
  let b := sampleBlock sampleEnv n.blocks 0 txHashes 0 sampleKey
  { b with minerTx := { b.minerTx with extra := (makeTxExtraAliasEntry alinfo false).getD [] } }

/-- A block registers a name and the next one moves it to another address; that one is popped. -/
theorem aliasStores_sampleNode : ∃ n, Reachable sampleEnv ∅ n ∧
    (n.txs.aliasDb.history [97, 98]).map AliasInfoBase.address = [⟨1, 2⟩, ⟨5, 6⟩] ∧
    ((popBlockFromBlockchain sampleEnv 0 n).2.txs.aliasDb.history [97, 98]).map AliasInfoBase.address =
      [⟨1, 2⟩] ∧
    (popBlockFromBlockchain sampleEnv 0 n).2.txs.aliasDb.Mirrored := by
  let registration := ExtraReader.sampleAliasInfo [7] nullSig
  let update := { ExtraReader.sampleAliasInfo [8] 4 with address := ⟨5, 6⟩ }
  have hdec : (((initNode sampleEnv 0 ∅).bind fun n₀ =>
      run sampleEnv n₀ [.block 0 1 (aliasBlock registration [] n₀)]).bind fun n₁ =>
        run sampleEnv n₁ [.block 0 1 (aliasBlock update [] n₁)]).map (fun n =>
          ((n.txs.aliasDb.history [97, 98]).map AliasInfoBase.address,
            ((popBlockFromBlockchain sampleEnv 0 n).2.txs.aliasDb.history [97, 98]).map
              AliasInfoBase.address)) = some ([⟨1, 2⟩, ⟨5, 6⟩], [⟨1, 2⟩]) := by
    decide +kernel
  obtain ⟨n, hn, hview⟩ := Option.map_eq_some_iff.mp hdec
  obtain ⟨hbefore, hafter⟩ := Prod.mk.inj hview
  obtain ⟨n₁, hn₁, hrun₂⟩ := Option.bind_eq_some_iff.mp hn
  obtain ⟨n₀, hinit, hrun₁⟩ := Option.bind_eq_some_iff.mp hn₁
  have hreach : Reachable sampleEnv ∅ n := Reachable.run ⟨0, n₀, _, hinit, hrun₁⟩ hrun₂
  exact ⟨n, hreach, hbefore, hafter,
    (aliasStores_of_reachable sampleEnv ∅ n _ hreach (.single ⟨0, Or.inr rfl⟩)).1⟩

end Boolberry
