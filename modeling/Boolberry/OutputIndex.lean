import Boolberry.MainChain

/-!
# The outputs of each amount

In every reachable state the list kept for an amount is the sequence of
`txout_to_key` outputs of that amount in chain order, every stored transaction
knows the positions of its outputs, and the backward scan of
`find_end_of_allowed_index` counts the outputs that are old enough.
-/

namespace Boolberry
open KeyValue

def TxOut.isToKey (o : TxOut) : Bool :=
  match o.target with
  | .toKey _ => true
  | _ => false

/-- The `txout_to_key` outputs of a transaction with their positions. -/
def toKeyOuts (vout : List TxOut) : List (TxOut × ℕ) := vout.zipIdx.filter fun p => p.1.isToKey

/-- The ids of the transactions of a block list: block by block, the coinbase first. -/
def chainTxIds (E : Env) (blocks : List BlockExtendedInfo) : List Hash :=
  blocks.flatMap fun bei => getTransactionHash E bei.bl.minerTx :: bei.bl.txHashes

/-- The `txout_to_key` outputs of amount `a` of one stored transaction. -/
def storedOutputs (s : TxIndex) (a : UInt64) (id : Hash) : List (Hash × ℕ) :=
  match s.transactions.get id with
  | none => []
  | some e => ((toKeyOuts e.tx.vout).filter fun p => p.1.amount = a).map fun p => (id, p.2)

/-- The `txout_to_key` outputs of amount `a` on the main chain, in chain order. -/
def chainOutputs (E : Env) (n : Node) (a : UInt64) : List (Hash × ℕ) :=
  (chainTxIds E n.blocks).flatMap (storedOutputs n.txs.index a)

/-- The keeper height of an output's transaction is old enough at the current height. -/
def isAllowed (n : Node) (out : Hash × ℕ) : Bool :=
  match n.txs.index.transactions.get out.1 with
  | none => false
  | some e => decide (e.keeperBlockHeight + CURRENCY_MINED_MONEY_UNLOCK_WINDOW ≤ n.blocks.length)

/-- The output containers of a node are those of its main chain. -/
structure OutputsOK (E : Env) (n : Node) : Prop where
  outputs : ∀ a, n.txs.index.outputs a = chainOutputs E n a
  globalIndexes : ∀ id e, n.txs.index.transactions.get id = some e →
    List.Forall₂ (fun g (p : TxOut × ℕ) => (n.txs.index.outputs p.1.amount)[g]? = some (id, p.2))
      e.globalOutputIndexes (toKeyOuts e.tx.vout)
  allowed : ∀ a, n.txs.index.findEndOfAllowedIndex n.blocks.length a =
    (n.txs.index.outputs a).countP (isAllowed n)

theorem outsOfAmount_eq (a : UInt64) (id : Hash) (vout : List TxOut) (i : ℕ) :
    outsOfAmount a id i vout =
      (((vout.zipIdx i).filter fun p => p.1.isToKey).filter fun p => p.1.amount = a).map
        fun p => (id, p.2) := by
  induction vout generalizing i with
  | nil => rfl
  | cons o l ih =>
    unfold outsOfAmount
    rw [List.zipIdx_cons]
    cases ht : o.target with
    | toKey k =>
      have hk : o.isToKey = true := by simp [TxOut.isToKey, ht]
      by_cases ha : o.amount = a <;> simp [ih, hk, ha]
    | toScript t =>
      have hk : o.isToKey = false := by simp [TxOut.isToKey, ht]
      simp [ih, hk]
    | toScripthash t =>
      have hk : o.isToKey = false := by simp [TxOut.isToKey, ht]
      simp [ih, hk]

theorem chainTxIds_blocksOf {E : Env} {cps : Checkpoints} {t : ℕ} {chain : List ChainBlock}
    (hv : ValidChain E cps t chain) :
    chainTxIds E (blocksOf chain) = (entriesOf E chain).map TxEntry.id := by
  induction hv with
  | genesis h =>
    simp [chainTxIds, blocksOf, entriesOf, ChainBlock.entries, h.txIds, coinbaseEntry]
  | snoc _ h ih =>
    rw [blocksOf_append, entriesOf_append, List.map_append, ← ih]
    simp [chainTxIds, blocksOf, entriesOf, ChainBlock.entries, h.txIds, coinbaseEntry]

theorem storedOutputs_indexOf {E : Env} (F : Flags) {l : List TxEntry} (hl : Linked E l) (a : UInt64)
    {te : TxEntry} (hte : te ∈ l) :
    storedOutputs (indexOf F l) a te.id = outsOfAmount a te.id 0 te.tx.vout := by
  obtain ⟨e, he, htx, -⟩ := transactions_indexOf_mem F hl.nodup_ids hte
  rw [storedOutputs, he, outsOfAmount_eq, ← htx]
  rfl

theorem outputsOf_eq_flatMap {E : Env} (F : Flags) {l : List TxEntry} (hl : Linked E l) (a : UInt64) :
    outputsOf l a = (l.map TxEntry.id).flatMap (storedOutputs (indexOf F l) a) := by
  rw [List.flatMap_map, outputsOf]
  exact List.flatMap_congr fun te hte => (storedOutputs_indexOf F hl a hte).symm

/-- The indexes that pushing a transaction records are the positions of its outputs. -/
theorem pushOuts_snd (id : Hash) (vout : List TxOut) (i : ℕ) (o : OutputsContainer) :
    List.Forall₂
      (fun g (p : TxOut × ℕ) => ((pushOuts id i vout o).1 p.1.amount)[g]? = some (id, p.2))
      (pushOuts id i vout o).2 ((vout.zipIdx i).filter fun p => p.1.isToKey) := by
  induction vout generalizing i o with
  | nil => exact .nil
  | cons ot l ih =>
    rw [List.zipIdx_cons]
    unfold pushOuts
    cases ht : ot.target with
    | toKey k =>
      have hk : ot.isToKey = true := by simp [TxOut.isToKey, ht]
      rw [List.filter_cons, if_pos hk]
      refine .cons ?_ (ih _ _)
      simp only [pushOuts_fst, Function.update_self]
      rw [List.getElem?_append_left (by simp)]
      simp
    | toScript t =>
      have hk : ot.isToKey = false := by simp [TxOut.isToKey, ht]
      rw [List.filter_cons, if_neg (by simp [hk])]
      exact ih _ _
    | toScripthash t =>
      have hk : ot.isToKey = false := by simp [TxOut.isToKey, ht]
      rw [List.filter_cons, if_neg (by simp [hk])]
      exact ih _ _

theorem globalIndexes_indexOf {F : Flags} {l : List TxEntry} (hnd : (l.map TxEntry.id).Nodup)
    {id : Hash} {e : TransactionChainEntry} (h : (indexOf F l).transactions.get id = some e) :
    List.Forall₂ (fun g (p : TxOut × ℕ) => (outputsOf l p.1.amount)[g]? = some (id, p.2))
      e.globalOutputIndexes (toKeyOuts e.tx.vout) := by
  obtain ⟨l₁, te, l₂, rfl, rfl, rfl⟩ := transactions_indexOf_some hnd h
  refine (pushOuts_snd te.id te.tx.vout 0 (outputsOf l₁)).imp fun g p hg => ?_
  have hout : outputsOf (l₁ ++ te :: l₂) p.1.amount =
      (pushOuts te.id 0 te.tx.vout (outputsOf l₁)).1 p.1.amount ++ outputsOf l₂ p.1.amount := by
    rw [outputsOf_append, pushOuts_fst, List.append_assoc]
    simp [outputsOf]
  rw [hout, List.getElem?_append_left (List.getElem?_eq_some_iff.mp hg).1]
  exact hg

/-- A backward scan for the last element that passes counts them all, when nothing behind an
element that fails passes. -/
theorem countP_take_succ {α : Type} {p : α → Bool} {l : List α} {i : ℕ} {x : α}
    (hmono : l.Pairwise fun a b => p b = true → p a = true) (hx : l[i]? = some x) :
    (l.take (i + 1)).countP p = if p x then i + 1 else (l.take i).countP p := by
  obtain ⟨hlt, rfl⟩ := List.getElem?_eq_some_iff.mp hx
  rw [List.take_succ_eq_append_getElem hlt, List.countP_append]
  split_ifs with hp
  · have hall : ∀ y ∈ l.take i, p y = true := by
      intro y hy
      obtain ⟨j, hj, rfl⟩ := List.mem_iff_getElem.mp hy
      rw [List.length_take] at hj
      rw [List.getElem_take]
      exact List.pairwise_iff_getElem.mp hmono j i (by omega) hlt (by omega) hp
    rw [List.countP_eq_length.mpr hall, List.length_take]
    simp [hp]
    omega
  · simp [hp]

theorem findEndOfAllowedIndexGo_eq {n : Node} {a : UInt64}
    (hmono : (n.txs.index.outputs a).Pairwise fun x y => isAllowed n y = true → isAllowed n x = true)
    (hstored : ∀ x ∈ n.txs.index.outputs a, ∃ e, n.txs.index.transactions.get x.1 = some e) (i : ℕ)
    (hi : i ≤ (n.txs.index.outputs a).length) :
    n.txs.index.findEndOfAllowedIndexGo n.blocks.length a i =
      ((n.txs.index.outputs a).take i).countP (isAllowed n) := by
  induction i with
  | zero => rfl
  | succ i ih =>
    have hget : (n.txs.index.outputs a)[i]? = some (n.txs.index.outputs a)[i] :=
      List.getElem?_eq_getElem hi
    obtain ⟨e, he⟩ := hstored _ (List.getElem_mem (show i < (n.txs.index.outputs a).length from hi))
    rw [countP_take_succ hmono hget, TxIndex.findEndOfAllowedIndexGo, hget]
    simp only [he, isAllowed, decide_eq_true_eq]
    rw [ih (by omega)]

/-- The heights of the transactions of a chain do not decrease along it. -/
theorem entriesOf_height_mono {E : Env} {cps : Checkpoints} {t : ℕ} {chain : List ChainBlock}
    (hv : ValidChain E cps t chain) :
    (entriesOf E chain).Pairwise (fun a b => a.height ≤ b.height) ∧
      ∀ te ∈ entriesOf E chain, te.height < chain.length := by
  have hblock : ∀ {cps' : Checkpoints} {chain : List ChainBlock} {c : ChainBlock},
      ValidNext E cps' t chain c → ∀ te ∈ c.entries E, te.height = chain.length := by
    intro cps' chain c hc te hte
    rcases List.mem_cons.mp hte with rfl | hte
    · exact hc.height
    · exact hc.txs.height te hte
  have hsame : ∀ {l : List TxEntry} {k : ℕ}, (∀ te ∈ l, te.height = k) →
      l.Pairwise fun a b => a.height ≤ b.height := fun h =>
    List.pairwise_of_forall_mem_list fun a ha b hb => by rw [h a ha, h b hb]
  induction hv with
  | @genesis c h =>
    have := hblock h
    simp only [entriesOf, List.flatMap_cons, List.flatMap_nil, List.append_nil]
    exact ⟨hsame this, fun te hte => by simp [this te hte]⟩
  | @snoc chain c _ h ih =>
    have hc := hblock h
    have hentries : entriesOf E (chain ++ [c]) = entriesOf E chain ++ c.entries E := by
      simp [entriesOf]
    rw [hentries, List.pairwise_append]
    refine ⟨⟨ih.1, hsame hc, fun a ha b hb => ?_⟩, fun te hte => ?_⟩
    · rw [hc b hb]
      exact (ih.2 a ha).le
    · rw [List.length_append, List.length_singleton]
      rcases List.mem_append.mp hte with hte | hte
      · exact (ih.2 te hte).trans (Nat.lt_succ_self _)
      · rw [hc te hte]
        exact Nat.lt_succ_self _

/-- Along the list of an amount, nothing behind an output that is too young is old enough. -/
theorem outputsOf_allowed_mono {n : Node} {l : List TxEntry} (a : UInt64)
    (hheight : l.Pairwise fun x y => x.height ≤ y.height)
    (hstored : ∀ te ∈ l, ∃ e, n.txs.index.transactions.get te.id = some e ∧
      e.keeperBlockHeight = te.height) :
    (outputsOf l a).Pairwise fun x y => isAllowed n y = true → isAllowed n x = true := by
  have hallowed : ∀ te ∈ l, ∀ x ∈ outsOfAmount a te.id 0 te.tx.vout, (isAllowed n x = true ↔
      te.height + CURRENCY_MINED_MONEY_UNLOCK_WINDOW ≤ n.blocks.length) := by
    intro te hte x hx
    obtain ⟨hid, -, -⟩ := mem_outsOfAmount hx
    obtain ⟨e, he, hh⟩ := hstored te hte
    simp [isAllowed, hid, he, hh]
  rw [outputsOf, List.pairwise_flatMap]
  refine ⟨fun te hte => ?_, ?_⟩
  · refine List.pairwise_of_forall_mem_list fun x hx y hy hal => ?_
    rw [hallowed te hte y hy] at hal
    rwa [hallowed te hte x hx]
  · refine List.Pairwise.imp_of_mem ?_ hheight
    intro te te' hte hte' hle x hx y hy hal
    rw [hallowed te' hte' y hy] at hal
    rw [hallowed te hte x hx]
    omega

/-- In every reachable state the output containers are those of the main chain. -/
theorem outputsOK_of_reachable (E : Env) (cps : Checkpoints) (n : Node) (h : Reachable E cps n) :
    OutputsOK E n := by
  obtain ⟨F, chain, -, ⟨t, hv⟩, hrep⟩ := chainInv_of_reachable h
  have hlinked := hrep.txs.linked
  have houts : ∀ a, n.txs.index.outputs a = outputsOf (entriesOf E chain) a := fun a => by
    rw [hrep.txs.index, outputs_indexOf]
  refine ⟨fun a => ?_, fun id e he => ?_, fun a => ?_⟩
  · rw [houts, chainOutputs, hrep.blocks, chainTxIds_blocksOf hv, hrep.txs.index]
    exact outputsOf_eq_flatMap F hlinked a
  · rw [hrep.txs.index] at he
    have := globalIndexes_indexOf hlinked.nodup_ids he
    simp only [houts]
    exact this
  · have hstored : ∀ te ∈ entriesOf E chain, ∃ e, n.txs.index.transactions.get te.id = some e ∧
        e.keeperBlockHeight = te.height := by
      intro te hte
      obtain ⟨e, he, -, hh, -⟩ := transactions_indexOf_mem F hlinked.nodup_ids hte
      exact ⟨e, by rw [hrep.txs.index]; exact he, hh⟩
    have hscan := findEndOfAllowedIndexGo_eq (n := n) (a := a)
      (by rw [houts]; exact outputsOf_allowed_mono a (entriesOf_height_mono hv).1 hstored)
      (fun x hx => by
        rw [houts] at hx
        obtain ⟨te, hte, hid, -⟩ := exists_of_mem_outputsOf hx
        obtain ⟨e, he, -⟩ := hstored te hte
        exact ⟨e, hid ▸ he⟩) _ le_rfl
    rw [TxIndex.findEndOfAllowedIndex, hscan, List.take_length]

theorem outputsOK_sampleNode : ∃ n, Reachable sampleEnv ∅ n ∧ n.blocks.length = 12 ∧
    (n.txs.index.transactions.get (getTransactionHash sampleEnv signedSpend)).isSome = true ∧
    OutputsOK sampleEnv n := by
  obtain ⟨n, hn, hlen, htx⟩ := exists_spending_node
  exact ⟨n, hn, hlen, htx, outputsOK_of_reachable sampleEnv ∅ n hn⟩

end Boolberry
