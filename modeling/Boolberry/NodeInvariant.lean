import Boolberry.Effects
import Boolberry.Core

/-!
# Invariants of a node

Whatever a node does to its main chain is a sequence of pushes and pops. A
property of the chain stores that both keep therefore holds in every reachable
state; the first such property is that the node represents a valid chain.
-/

namespace Boolberry
open KeyValue TxMemoryPool

/-- A property of the chain stores that pushing and popping blocks at time `now` keep. -/
structure StoreInvariant (E : Env) (now : ℕ) (P : Node → Prop) : Prop where
  push : ∀ n bvc bl, P n → P (handleBlockToMainChain E now bvc n bl).2.2
  pop : ∀ n, P n → P (popBlockFromBlockchain E now n).2
  frame : ∀ n n' : Node, n'.toChainStores = n.toChainStores → n'.checkpoints = n.checkpoints →
    P n → P n'

namespace StoreInvariant

variable {E : Env} {now : ℕ} {P : Node → Prop} (h : StoreInvariant E now P)
include h

/-- A store invariant does not depend on which blocks come in. -/
theorem toAlt : AltInvariant E now P (fun _ => True) (fun _ => True) (fun _ => True) where
  push n bvc bl hn _ := h.push n bvc bl hn
  pop n _ hn _ _ := h.pop n hn
  invalid n bei id hn :=
    have hs := addBlockAsInvalid_stores n bei id
    h.frame n _ hs.1 hs.2.checkpoints hn
  erase n _ hn := h.frame n _ rfl rfl hn
  add bvc n b a hn _ _ _ _ := by
    have hadd := addAlternativeBlock_effect E bvc n b a
    split at hadd
    · exact h.frame n _ hadd.2.1 hadd.2.2.1.checkpoints hn
    · exact ⟨h.frame n _ hadd.1 hadd.2.1 hn, fun _ _ => trivial⟩
  main _ _ _ _ _ _ _ _ := ⟨trivial, trivial⟩
  alt _ _ _ _ _ := trivial

theorem addNewBlock {fuel : ℕ} {bvc : BlockVerificationContext} {n : Node} {b : Block}
    {r : Bool × BlockVerificationContext × Node} (hn : P n)
    (hr : Boolberry.addNewBlock E now fuel bvc n b = some r) : P r.2.2 :=
  h.toAlt.addNewBlock hn (fun _ => trivial) (fun _ => trivial) hr

end StoreInvariant

/-- An event other than a block touches neither the blocks nor the flag, and adds no alternative
block. -/
theorem Event.effect {E : Env} {n n' : Node} {e : Event} (hb : e.isBlock = false)
    (he : e.apply E n = some n') :
    SameBlocks n n' ∧ n'.checkpoints = n.checkpoints ∧
      n'.isInCheckpointZone = n.isInCheckpointZone ∧
      ∀ id bei, n'.alternativeChains.get id = some bei → n.alternativeChains.get id = some bei := by
  cases e with
  | block now fuel bl => simp [Event.isBlock] at hb
  | transaction now tx kept =>
    obtain rfl := Option.some.inj he
    unfold handleIncomingTx
    split_ifs
    · unfold addNewTx
      split_ifs <;> exact ⟨⟨rfl, rfl⟩, rfl, rfl, fun _ _ h => h⟩
    · exact ⟨⟨rfl, rfl⟩, rfl, rfl, fun _ _ h => h⟩
  | removeStuck now order =>
    obtain rfl := Option.some.inj he
    exact ⟨⟨rfl, rfl⟩, rfl, rfl, fun _ _ h => h⟩
  | pruneAltBlocks =>
    obtain rfl := Option.some.inj he
    refine ⟨⟨rfl, rfl⟩, rfl, rfl, fun id bei h => ?_⟩
    rw [pruneAgedAltBlocks, Map.get_filter, Option.filter_eq_some_iff] at h
    exact h.1

/-- Every event of a run meets `C` in the state it comes in. -/
def RunMeets (E : Env) (C : Node → Event → Prop) : Node → List Event → Prop
  | _, [] => True
  | n, e :: l => C n e ∧ ∀ n', e.apply E n = some n' → RunMeets E C n' l

/-- What every event that meets `C` keeps holds at the end of a run whose events all do. -/
theorem RunMeets.invariant {E : Env} {C : Node → Event → Prop} {P : Node → Prop}
    (hstep : ∀ n n' e, P n → C n e → e.apply E n = some n' → P n') {events : List Event}
    {n n' : Node} (hm : RunMeets E C n events) (hn : P n) (hr : run E n events = some n') : P n' := by
  induction events generalizing n with
  | nil =>
    obtain rfl := Option.some.inj hr
    exact hn
  | cons e l ih =>
    cases he : e.apply E n with
    | none => simp [run, he] at hr
    | some n₁ =>
      simp only [run, he] at hr
      exact ih (hm.2 n₁ he) (hstep n n₁ e hn hm.1 he) hr

/-- The node represents a valid chain under the checkpoints `cps`. -/
def Represents (E : Env) (cps : Checkpoints) (F : Flags) (chain : List ChainBlock) (n : Node) : Prop :=
  n.checkpoints = cps ∧ (∃ t, ValidChain E cps t chain) ∧ Rep E F chain n.toChainStores

def ChainInv (E : Env) (cps : Checkpoints) (n : Node) : Prop :=
  ∃ F chain, Represents E cps F chain n

theorem ValidChain.snoc' {E : Env} {cps : Checkpoints} {t now : ℕ} {chain : List ChainBlock}
    {c : ChainBlock} (h : ValidChain E cps t chain) (hc : ValidNext E cps now chain c) :
    ValidChain E cps (max t now) (chain ++ [c]) :=
  .snoc (h.mono (le_max_left t now)) (hc.mono (le_max_right t now))

theorem popBlockFromBlockchain_spec {E : Env} {cps : Checkpoints} {t : ℕ} {F : Flags}
    {chain : List ChainBlock} {n : Node} (now : ℕ) (hv : ValidChain E cps t chain)
    (hrep : Rep E F chain n.toChainStores) :
    popBlockFromBlockchain E now n = (false, n) ∨
    ∃ n' chain' c, chain = chain' ++ [c] ∧ ValidChain E cps t chain' ∧
      ValidNext E cps t chain' c ∧ Readable E c.bei.bl ∧
      popBlockFromBlockchain E now n = (true, n') ∧
      Rep E (F.mark (blockRefs (entriesOf E chain') (c.entries E)) false) chain' n'.toChainStores ∧
      Known E chain' n'.toChainStores = Known E chain n.toChainStores ∧ SameFrame n n' := by
  obtain ⟨chain', c, rfl⟩ := (List.eq_nil_or_concat' chain).resolve_left hv.ne_nil
  by_cases hne : chain' = []
  · left
    have hlen : n.blocks.length ≤ 1 := by
      rw [hrep.blocks, blocksOf_length, hne]
      simp
    simp [popBlockFromBlockchain, hlen]
  obtain ⟨hv', hc⟩ := hv.of_append_singleton hne
  by_cases hr : Readable E c.bei.bl
  · obtain ⟨n', hpop, hrep', hknown, hf⟩ := popBlockFromBlockchain_readable now hrep hc hne hr
    exact Or.inr ⟨n', chain', c, rfl, hv', hc, hr, hpop, hrep', hknown, hf⟩
  · exact Or.inl (popBlockFromBlockchain_unreadable now hrep hr)

theorem chainInv_store (E : Env) (cps : Checkpoints) (now : ℕ) :
    StoreInvariant E now (ChainInv E cps) where
  push := by
    rintro n bvc bl ⟨F, chain, hcp, ⟨t, hv⟩, hrep⟩
    rcases handleBlockToMainChain_spec now bl bvc hrep with ⟨-, -, c, -, hp⟩ | ⟨-, -, hr⟩
    · have hvalid := hp.valid
      rw [hcp] at hvalid
      exact ⟨_, _, hp.frame.checkpoints.trans hcp, ⟨_, hv.snoc' hvalid⟩, hp.rep⟩
    · obtain ⟨R, es, hrep', -⟩ := hr.rep
      exact ⟨_, _, hr.frame.checkpoints.trans hcp, ⟨t, hv⟩, hrep'⟩
  pop := by
    rintro n ⟨F, chain, hcp, ⟨t, hv⟩, hrep⟩
    rcases popBlockFromBlockchain_spec now hv hrep with
      hpop | ⟨n', chain', c, -, hv', -, -, hpop, hrep', -, hf⟩
    · rw [hpop]
      exact ⟨F, chain, hcp, ⟨t, hv⟩, hrep⟩
    · rw [hpop]
      exact ⟨_, chain', hf.checkpoints.trans hcp, ⟨t, hv'⟩, hrep'⟩
  frame := by
    rintro n n' hs hc ⟨F, chain, hcp, hv, hrep⟩
    exact ⟨F, chain, hc.trans hcp, hv, by rw [hs]; exact hrep⟩

theorem transactions_indexOf_isSome {E : Env} {F : Flags} {l : List TxEntry} {id : Hash}
    (hl : Linked E l) :
    ((indexOf F l).transactions.get id).isSome = true ↔ id ∈ l.map TxEntry.id := by
  constructor
  · intro h
    by_contra hid
    rw [transactions_indexOf_none F hid] at h
    simp at h
  · intro h
    obtain ⟨te, hte, rfl⟩ := List.mem_map.mp h
    obtain ⟨e, he, -⟩ := transactions_indexOf_mem F hl.nodup_ids hte
    rw [he]
    rfl

/-- A pool in order that holds no transaction of the chain may take the place of the old one. -/
theorem Rep.setPool {E : Env} {F : Flags} {chain : List ChainBlock} {s : ChainStores}
    (h : Rep E F chain s) {p : TxMemoryPool} (hp : PoolOK E p)
    (hd : ∀ te ∈ entriesOf E chain, isCoinbase te.tx = false → p.transactions.get te.id = none) :
    Rep E F chain { s with txs := { s.txs with pool := p } } :=
  ⟨h.blocks, h.blocksIndex, ⟨h.txs.index, h.txs.aliases, hp, hd, h.txs.linked⟩, h.scratchpad⟩

/-- A transaction that comes in goes to the pool or changes nothing. -/
theorem handleIncomingTx_spec {E : Env} {F : Flags} {chain : List ChainBlock} {n : Node} (now : ℕ)
    (tx : Transaction) (kept : Bool) (hrep : Rep E F chain n.toChainStores) :
    let n' := (handleIncomingTx E now n tx kept).2.2
    Rep E F chain n'.toChainStores ∧ SameFrame n n' ∧
      ∀ id d, n'.txs.pool.transactions.get id = some d →
        n.txs.pool.transactions.get id = some d ∨ d.tx = tx := by
  intro n'
  have hsame : Rep E F chain n.toChainStores ∧ SameFrame n n ∧
      ∀ id d, n.txs.pool.transactions.get id = some d →
        n.txs.pool.transactions.get id = some d ∨ d.tx = tx :=
    ⟨hrep, SameFrame.refl n, fun _ _ h => Or.inl h⟩
  simp only [n', handleIncomingTx, addNewTx]
  split_ifs with h1 h2 h3
  · exact hsame
  · exact hsame
  · have hid : getTransactionHash E tx ∉ (entriesOf E chain).map TxEntry.id := by
      rw [hrep.txs.index, transactions_indexOf_isSome hrep.txs.linked] at h3
      exact h3
    have hcases := addTx_spec now ((n.view E now).checkTxInputs n.txs.index) {} kept
      hrep.txs.pool (semantic_of_checkTxSemantic h1)
    generalize addTx now ((n.view E now).checkTxInputs n.txs.index) n.txs.pool tx
      (getTransactionHash E tx) {} kept = r at hcases
    rcases hcases with ⟨-, hr⟩ | ⟨-, hp, -, -, d, hd, -, hr⟩
    · rw [hr]
      exact hsame
    · refine ⟨hrep.setPool hp fun te hte hc => ?_, ⟨rfl, rfl⟩, fun id d' hget => ?_⟩
      · have hne : te.id ≠ getTransactionHash E tx := fun he =>
          hid (he ▸ List.mem_map_of_mem hte)
        rw [hr, Map.get_set_of_ne _ _ hne]
        exact hrep.txs.disjoint te hte hc
      · simp only [hr, Map.get_set] at hget
        split_ifs at hget
        · exact Or.inr (Option.some.inj hget ▸ hd)
        · exact Or.inl hget
  · exact hsame

theorem removeStuck_rep {E : Env} {F : Flags} {chain : List ChainBlock} {s : ChainStores} (now : ℕ)
    (order : List Hash) (h : Rep E F chain s) :
    Rep E F chain { s with txs := { s.txs with
      pool := s.txs.pool.removeStuckTransactions E now order } } := by
  obtain ⟨hp, hsub⟩ := removeStuckTransactions_spec now order h.txs.pool
  refine h.setPool hp fun te hte hc => ?_
  cases hg : (removeStuckTransactions E now order s.txs.pool).transactions.get te.id with
  | none => rfl
  | some d =>
    have := hsub te.id d hg
    rw [h.txs.disjoint te hte hc] at this
    simp at this

/-- A property kept by every event that meets `Q` holds after every run of such events. -/
theorem run_induction {E : Env} {P : Node → Prop} {Q : Event → Prop}
    (hstep : ∀ n n' e, P n → Q e → e.apply E n = some n' → P n') {n n' : Node}
    {events : List Event} (hn : P n) (hq : ∀ e ∈ events, Q e) (hr : run E n events = some n') :
    P n' := by
  induction events generalizing n with
  | nil =>
    obtain rfl := Option.some.inj hr
    exact hn
  | cons e l ih =>
    unfold run at hr
    cases he : e.apply E n with
    | none => simp [he] at hr
    | some m =>
      simp only [he] at hr
      exact ih (hstep n m e hn (hq e (by simp)) he) (fun e' he' => hq e' (by simp [he'])) hr

theorem chainInv_event {E : Env} {cps : Checkpoints} {n n' : Node} {e : Event}
    (hn : ChainInv E cps n) (he : e.apply E n = some n') : ChainInv E cps n' := by
  cases e with
  | block now fuel bl =>
    obtain ⟨r, hr, rfl⟩ := Option.map_eq_some_iff.mp he
    exact (chainInv_store E cps now).addNewBlock hn hr
  | transaction now tx kept =>
    obtain rfl := Option.some.inj he
    obtain ⟨F, chain, hcp, hv, hrep⟩ := hn
    obtain ⟨hrep', hf, -⟩ := handleIncomingTx_spec now tx kept hrep
    exact ⟨F, chain, hf.checkpoints.trans hcp, hv, hrep'⟩
  | removeStuck now order =>
    obtain rfl := Option.some.inj he
    obtain ⟨F, chain, hcp, hv, hrep⟩ := hn
    exact ⟨F, chain, hcp, hv, removeStuck_rep now order hrep⟩
  | pruneAltBlocks =>
    obtain rfl := Option.some.inj he
    exact (chainInv_store E cps 0).frame n _ rfl rfl hn

/-- Setting the checkpoints on a chain of one block without transactions prunes nothing. -/
theorem setCheckpoints_stores {n : Node} {bei : BlockExtendedInfo} (cps : Checkpoints)
    (hb : n.blocks = [bei]) (htx : bei.bl.txHashes = []) :
    (setCheckpoints n cps).toChainStores = n.toChainStores ∧
      (setCheckpoints n cps).checkpoints = cps ∧
      (setCheckpoints n cps).alternativeChains = n.alternativeChains := by
  have hprune : ∀ l s, (pruneHeights [bei] l s).2 = s := by
    intro l
    induction l with
    | nil => simp [pruneHeights]
    | cons h l ih =>
      intro s
      match h with
      | 0 => simp [pruneHeights, pruneRingSignatures, htx, pruneTransactions, ih]
      | h + 1 => simp [pruneHeights, pruneRingSignatures]
  obtain ⟨⟨blocks, _, _, _⟩, _, _, _, _, _, _, _, _⟩ := n
  simp only at hb
  subst hb
  unfold setCheckpoints pruneRingSignaturesIfNeed
  simp only [hprune]
  split_ifs <;> exact ⟨rfl, rfl, rfl⟩

/-- A node that has come up represents the chain of the genesis block alone. -/
theorem initNode_spec {E : Env} {now : ℕ} {cps : Checkpoints} {n : Node}
    (h : initNode E now cps = some n) :
    ∃ c, c.bei.bl = generateGenesisBlock ∧ ValidNext E ∅ now [] c ∧ n.checkpoints = cps ∧
      Rep E (flagsAfter (fun _ _ => false) [] (c.entries E)) [c] n.toChainStores ∧ n.alternativeChains = ∅ ∧
      ∀ id, Known E [c] n.toChainStores id = none := by
  have hrep : Rep E (fun _ _ => false) [] Node.empty.toChainStores :=
    ⟨rfl, rfl, ⟨rfl, ⟨AliasDb.addrOK_empty, fun _ => rfl⟩, poolOK_empty E, by simp [entriesOf],
      .nil⟩, rfl⟩
  have hprev : generateGenesisBlock.prevId = getTopBlockId E Node.empty.blocks := rfl
  have hnew : addNewBlock E now 1 {} Node.empty generateGenesisBlock =
      some (handleBlockToMainChain E now {} Node.empty generateGenesisBlock) := by
    have hhave : haveBlock Node.empty (getBlockHash E generateGenesisBlock) = false := by
      simp [haveBlock, Node.empty]
    simp only [addNewBlock, hhave, hprev, ne_eq, not_true_eq_false, if_false, Bool.false_eq_true]
  have hpush := handleBlockToMainChain_spec now generateGenesisBlock {} hrep
  simp only [initNode, hnew] at h
  generalize handleBlockToMainChain E now {} Node.empty generateGenesisBlock = r at h hpush
  obtain ⟨ok, bvc, n₁⟩ := r
  rcases hpush with ⟨h1, -, c, hbl, hp⟩ | ⟨h1, -⟩
  swap
  · simp only at h1
    simp [h1] at h
  simp only at h hp
  split_ifs at h
  obtain rfl := Option.some.inj h
  have htx : c.bei.bl.txHashes = [] := by rw [hbl]; rfl
  obtain ⟨hs, hcp, halt⟩ := setCheckpoints_stores cps hp.rep.blocks htx
  refine ⟨c, hbl, hp.valid, hcp, ?_, ?_, fun id => ?_⟩
  · rw [hs]
    exact hp.rep
  · rw [halt, hp.frame.alternativeChains]
    rfl
  · rw [hs]
    rcases hp.recalls id with hk | ⟨hm, -⟩
    · exact hk
    · rw [htx] at hm
      simp at hm

theorem chainInv_of_reachable {E : Env} {cps : Checkpoints} {n : Node} (h : Reachable E cps n) :
    ChainInv E cps n := by
  obtain ⟨now, n₀, events, hinit, hrun⟩ := h
  obtain ⟨c, -, hc, hcp, hrep, -⟩ := initNode_spec hinit
  exact run_induction (Q := fun _ => True) (fun _ _ _ hn _ he => chainInv_event hn he)
    ⟨_, [c], hcp, ⟨now, .genesis hc⟩, hrep⟩ (fun _ _ => trivial) hrun

end Boolberry
