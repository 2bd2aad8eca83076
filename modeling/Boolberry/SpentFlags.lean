import Boolberry.PopRestores

/-!
# Key images and spent flags

The spent keys of a node are always the key images of its main chain. The spent
flags are those of the outputs that main-chain inputs refer to by a single offset
as long as no output is referred to twice: a purge clears the flag for all
references at once.
-/

namespace Boolberry
open KeyValue TxMemoryPool

/-- The outputs that some transaction of the list refers to by a single offset are flagged. -/
def exactFlags (l : List TxEntry) : Flags := fun id k => decide ((id, k) ∈ blockRefs [] l)

theorem blockRefs_nil_append (l es : List TxEntry) :
    blockRefs [] (l ++ es) = blockRefs [] l ++ blockRefs l es := by
  rw [blockRefs_append, List.nil_append]

theorem blockRefs_append_singleton (l es : List TxEntry) (te : TxEntry) :
    blockRefs l (es ++ [te]) = blockRefs l es ++ refsOf (l ++ es) te.tx := by
  rw [blockRefs_append]
  simp [blockRefs]

theorem mem_ids_of_mem_refsOf {l : List TxEntry} {tx : Transaction} {r : Hash × ℕ}
    (h : r ∈ refsOf l tx) : r.1 ∈ l.map TxEntry.id := by
  obtain ⟨inp, g, -, -, hget⟩ := mem_directRefs.mp h
  obtain ⟨te, hte, hid, -⟩ := exists_of_mem_outputsOf (List.mem_of_getElem? hget)
  exact hid ▸ List.mem_map_of_mem hte

theorem mem_ids_of_mem_blockRefs {l : List TxEntry} {r : Hash × ℕ} (h : r ∈ blockRefs [] l) :
    r.1 ∈ l.map TxEntry.id := by
  induction l using List.reverseRecOn with
  | nil => simp [blockRefs] at h
  | append_singleton l te ih =>
    rw [blockRefs_append_singleton, List.mem_append] at h
    rw [List.map_append, List.mem_append]
    rcases h with h | h
    · exact Or.inl (ih h)
    · exact Or.inl (mem_ids_of_mem_refsOf h)

/-- Flags that agree on the list still do after more transactions were added. -/
theorem flagsAfter_congr {F F' : Flags} {l es : List TxEntry}
    (h : ∀ te ∈ l, ∀ k, F te.id k = F' te.id k) :
    ∀ te ∈ l ++ es, ∀ k, flagsAfter F l es te.id k = flagsAfter F' l es te.id k := by
  induction es generalizing F F' l with
  | nil => simpa [flagsAfter] using h
  | cons te₀ es ih =>
    rw [List.append_cons]
    refine ih fun te hte k => ?_
    rcases List.mem_append.mp hte with hte | hte
    · simp only [addFlags, Flags.mark, h te hte k]
    · simp [List.mem_singleton.mp hte, addFlags]

theorem flagsAfter_exactFlags {E : Env} {l es : List TxEntry} (hl : Linked E (l ++ es)) :
    ∀ te ∈ l ++ es, ∀ k, flagsAfter (exactFlags l) l es te.id k = exactFlags (l ++ es) te.id k := by
  induction es generalizing l with
  | nil => simp [flagsAfter]
  | cons te₀ es ih =>
    have hfresh := hl.addable.id_notMem
    rw [List.append_cons] at hl ⊢
    intro te hte k
    rw [← ih hl te hte k, flagsAfter]
    refine flagsAfter_congr (fun te' hte' k' => ?_) te hte k
    have hrefs : blockRefs [] (l ++ [te₀]) = blockRefs [] l ++ refsOf l te₀.tx :=
      blockRefs_append_singleton [] l te₀
    rcases List.mem_append.mp hte' with hmem | hmem
    · have hne : te'.id ≠ te₀.id := fun he => hfresh (he ▸ List.mem_map_of_mem hmem)
      by_cases hr : (te'.id, k') ∈ refsOf l te₀.tx <;>
        simp [addFlags, hne, Flags.mark, exactFlags, hrefs, hr]
    · -- nothing refers to the new transaction yet
      rw [List.mem_singleton.mp hmem]
      have hnot : (te₀.id, k') ∉ blockRefs [] (l ++ [te₀]) := by
        rw [hrefs, List.mem_append]
        rintro (h | h)
        · exact hfresh (mem_ids_of_mem_blockRefs h)
        · exact hfresh (mem_ids_of_mem_refsOf h)
      simp [addFlags, exactFlags, hnot]

/-- Clearing references that nothing else in the list makes keeps exact flags exact. -/
theorem exactFlags_mark {l : List TxEntry} {R : List (Hash × ℕ)}
    (h : ∀ r ∈ R, r ∉ blockRefs [] l) : (exactFlags l).mark R false = exactFlags l := by
  funext id k
  by_cases hr : (id, k) ∈ R
  · simp [Flags.mark, exactFlags, hr, h _ hr]
  · simp [Flags.mark, hr]

theorem exactFlags_purge {l es : List TxEntry} (h : ∀ r ∈ blockRefs l es, r ∉ blockRefs [] l) :
    (exactFlags (l ++ es)).mark (blockRefs l es) false = exactFlags l := by
  funext id k
  by_cases hr : (id, k) ∈ blockRefs l es
  · simp [Flags.mark, exactFlags, hr, h _ hr]
  · simp [Flags.mark, exactFlags, hr, blockRefs_nil_append]

/-- The transactions besides coinbases are of `T`. -/
def MadeOf (T : Set TransactionPrefix) (l : List TxEntry) : Prop :=
  ∀ te ∈ l, isCoinbase te.tx = false → te.tx.toTransactionPrefix ∈ T

/-- On a chain of transactions of `T`, a further transaction of `T` in the next block whose inputs
pass `check_tx_inputs` refers by a single offset to no output that was referred to so before. -/
def SpendsOnce (E : Env) (cps : Checkpoints) (T : Set TransactionPrefix) : Prop :=
  ∀ (t : ℕ) (chain : List ChainBlock) (b : Block) (es : List TxEntry) (te : TxEntry),
    ValidChain E cps t chain → MadeOf T (entriesOf E chain) → isCoinbase b.minerTx = true →
    Addable E (entriesOf E chain) (coinbaseOf E b chain.length) →
    TxsOK E t chain.length (zoneAt cps chain)
      (entriesOf E chain ++ [coinbaseOf E b chain.length]) es →
    MadeOf T es → te.tx.toTransactionPrefix ∈ T →
    (TxIndex.checkTxInputs E (indexOf (fun _ _ => false)
      (entriesOf E chain ++ [coinbaseOf E b chain.length] ++ es)) t chain.length (zoneAt cps chain)
      te.tx).isSome = true →
    ∀ r ∈ refsOf (entriesOf E chain ++ [coinbaseOf E b chain.length] ++ es) te.tx,
      r ∉ blockRefs [] (entriesOf E chain ++ [coinbaseOf E b chain.length] ++ es)

section Once

variable {E : Env} {cps : Checkpoints} {T : Set TransactionPrefix} {t : ℕ} {chain : List ChainBlock}
  {b : Block}

theorem SpendsOnce.next (hT : SpendsOnce E cps T) (hv : ValidChain E cps t chain)
    (hm : MadeOf T (entriesOf E chain)) (hb : isCoinbase b.minerTx = true)
    (ha : Addable E (entriesOf E chain) (coinbaseOf E b chain.length)) {es : List TxEntry}
    {te : TxEntry} (hes : ∀ te ∈ es, te.tx.toTransactionPrefix ∈ T)
    (hte : te.tx.toTransactionPrefix ∈ T)
    (hok : TxsOK E t chain.length (zoneAt cps chain)
      (entriesOf E chain ++ [coinbaseOf E b chain.length]) es)
    (hck : (TxIndex.checkTxInputs E (indexOf (fun _ _ => false)
      (entriesOf E chain ++ [coinbaseOf E b chain.length] ++ es)) t chain.length (zoneAt cps chain)
      te.tx).isSome = true) :
    ∀ r ∈ refsOf (entriesOf E chain ++ [coinbaseOf E b chain.length] ++ es) te.tx,
      r ∉ blockRefs [] (entriesOf E chain) := by
  intro r hr hmem
  refine hT t chain b es te hv hm hb ha hok (fun te' hte' _ => hes te' hte') hte hck r hr ?_
  rw [List.append_assoc, blockRefs_nil_append]
  exact List.mem_append_left _ hmem

theorem SpendsOnce.txsOK (hT : SpendsOnce E cps T) (hv : ValidChain E cps t chain)
    (hm : MadeOf T (entriesOf E chain)) (hb : isCoinbase b.minerTx = true)
    (ha : Addable E (entriesOf E chain) (coinbaseOf E b chain.length)) {es : List TxEntry}
    (hes : ∀ te ∈ es, te.tx.toTransactionPrefix ∈ T)
    (hok : TxsOK E t chain.length (zoneAt cps chain)
      (entriesOf E chain ++ [coinbaseOf E b chain.length]) es) :
    ∀ r ∈ blockRefs (entriesOf E chain ++ [coinbaseOf E b chain.length]) es,
      r ∉ blockRefs [] (entriesOf E chain) := by
  induction es using List.reverseRecOn with
  | nil => simp [blockRefs]
  | append_singleton es te ih =>
    obtain ⟨hok, hlast⟩ := hok.of_append
    have hes' : ∀ te ∈ es, te.tx.toTransactionPrefix ∈ T := fun te' hte' => hes te' (by simp [hte'])
    intro r hr
    rw [blockRefs_append_singleton, List.mem_append] at hr
    rcases hr with hr | hr
    · exact ih hes' hok r hr
    · exact hT.next hv hm hb ha hes' (hes te (by simp)) hok hlast.2.2.2.2.1 r hr

theorem SpendsOnce.tried (hT : SpendsOnce E cps T) (hv : ValidChain E cps t chain)
    (hm : MadeOf T (entriesOf E chain)) (hb : isCoinbase b.minerTx = true)
    (ha : Addable E (entriesOf E chain) (coinbaseOf E b chain.length)) {es : List TxEntry}
    (hes : ∀ te ∈ es, te.tx.toTransactionPrefix ∈ T)
    (htried : Tried E t chain.length (zoneAt cps chain)
      (entriesOf E chain ++ [coinbaseOf E b chain.length]) es) :
    ∀ r ∈ blockRefs (entriesOf E chain ++ [coinbaseOf E b chain.length]) es,
      r ∉ blockRefs [] (entriesOf E chain) := by
  rcases htried with hok | ⟨es₀, te, rfl, hok, hck⟩
  · exact hT.txsOK hv hm hb ha hes hok
  · have hes' : ∀ te ∈ es₀, te.tx.toTransactionPrefix ∈ T := fun te' hte' =>
      hes te' (by simp [hte'])
    intro r hr
    rw [blockRefs_append_singleton, List.mem_append] at hr
    rcases hr with hr | hr
    · exact hT.txsOK hv hm hb ha hes' hok r hr
    · exact hT.next hv hm hb ha hes' (hes te (by simp)) hok hck r hr

end Once

/-- The node represents the valid chain `chain` with exact flags, and it knows of no transactions
but those of `T`. -/
structure Exact (E : Env) (cps : Checkpoints) (T : Set TransactionPrefix) (t : ℕ)
    (chain : List ChainBlock) (n : Node) : Prop where
  checkpoints : n.checkpoints = cps
  valid : ValidChain E cps t chain
  rep : Rep E (exactFlags (entriesOf E chain)) chain n.toChainStores
  known : ∀ id tx, Known E chain n.toChainStores id = some tx → tx.toTransactionPrefix ∈ T

theorem Rep.congr {E : Env} {F F' : Flags} {chain : List ChainBlock} {s : ChainStores}
    (h : Rep E F chain s) (hF : ∀ te ∈ entriesOf E chain, ∀ k, F te.id k = F' te.id k) :
    Rep E F' chain s :=
  ⟨h.blocks, h.blocksIndex, h.txs.congr hF, h.scratchpad⟩

theorem Rep.known {E : Env} {F : Flags} {chain : List ChainBlock} {s : ChainStores}
    (h : Rep E F chain s) {te : TxEntry} (hte : te ∈ entriesOf E chain)
    (hc : isCoinbase te.tx = false) : Known E chain s te.id = some te.tx := by
  have hfind : (entriesOf E chain).find? (fun te' => te'.id == te.id && !isCoinbase te'.tx) =
      some te := by
    obtain ⟨l₁, l₂, hl⟩ := List.append_of_mem hte
    have hnd := h.txs.linked.nodup_ids
    rw [hl, List.map_append, List.map_cons, List.nodup_append] at hnd
    rw [hl, List.find?_append, List.find?_cons_of_pos (by simp [hc]), List.find?_eq_none.mpr]
    · rfl
    · intro te' hte'
      have hne : te'.id ≠ te.id := hnd.2.2 te'.id (List.mem_map_of_mem hte') te.id (by simp)
      simp [hne]
  simp [Known, knownIn, h.txs.disjoint te hte hc, hfind]

theorem Recalls.prefix {zone : Bool} {ids : List Hash} {f f' : Hash → Option Transaction}
    {T : Set TransactionPrefix} (h : Recalls zone ids f f')
    (hf : ∀ id tx, f id = some tx → tx.toTransactionPrefix ∈ T) :
    ∀ id tx, f' id = some tx → tx.toTransactionPrefix ∈ T := by
  intro id tx hid
  rcases h id with he | ⟨-, he⟩
  · exact hf id tx (he ▸ hid)
  · rw [hid] at he
    obtain ⟨tx₀, htx₀, rfl⟩ := Option.map_eq_some_iff.mp he.symm
    have := hf id tx₀ htx₀
    cases zone <;> exact this

namespace Exact

variable {E : Env} {cps : Checkpoints} {T : Set TransactionPrefix} {t : ℕ} {chain : List ChainBlock}
  {n : Node}

theorem mono {t' : ℕ} (hle : t ≤ t') (h : Exact E cps T t chain n) : Exact E cps T t' chain n :=
  ⟨h.checkpoints, h.valid.mono hle, h.rep, h.known⟩

theorem frame {n' : Node} (h : Exact E cps T t chain n)
    (hs : n'.toChainStores = n.toChainStores) (hc : n'.checkpoints = n.checkpoints) :
    Exact E cps T t chain n' :=
  ⟨hc.trans h.checkpoints, h.valid, by rw [hs]; exact h.rep, by rw [hs]; exact h.known⟩

theorem madeOf (h : Exact E cps T t chain n) : MadeOf T (entriesOf E chain) :=
  fun te hte hc => h.known te.id te.tx (h.rep.known hte hc)

theorem fetched (h : Exact E cps T t chain n) {zone : Bool} {height : ℕ} {ids : List Hash}
    {es : List TxEntry} (hf : Fetched (Known E chain n.toChainStores) zone height ids es) :
    ∀ te ∈ es, te.tx.toTransactionPrefix ∈ T := by
  intro te hte
  obtain ⟨-, tx, hknown, htx⟩ := hf.known te hte
  have := h.known _ _ hknown
  rw [htx]
  cases zone <;> exact this

theorem of_pushed {now : ℕ} {n' : Node} {c : ChainBlock} (h : Exact E cps T t chain n)
    (hp : Pushed E now (exactFlags (entriesOf E chain)) chain n n' c) :
    Exact E cps T (max t now) (chain ++ [c]) n' := by
  refine ⟨hp.frame.checkpoints.trans h.checkpoints, ?_, ?_, ?_⟩
  · have hvalid := hp.valid
    rw [h.checkpoints] at hvalid
    exact h.valid.snoc' hvalid
  · refine hp.rep.congr fun te hte k => ?_
    have hl := hp.rep.txs.linked
    have happ : entriesOf E (chain ++ [c]) = entriesOf E chain ++ c.entries E := by
      rw [entriesOf_append]
      simp [entriesOf]
    rw [happ] at hte hl ⊢
    exact flagsAfter_exactFlags hl te hte k
  · exact hp.recalls.prefix h.known

/-- A push extends the chain or leaves everything as it was, flags included. -/
theorem push (hT : SpendsOnce E cps T) (now : ℕ) (bl : Block) (bvc : BlockVerificationContext)
    (h : Exact E cps T t chain n) :
    let r := handleBlockToMainChain E now bvc n bl
    (r.1 = true ∧ r.2.1 = { bvc with addedToMainChain := true } ∧
      ∃ c, c.bei.bl = bl ∧ Pushed E now (exactFlags (entriesOf E chain)) chain n r.2.2 c ∧
        Exact E cps T (max t now) (chain ++ [c]) r.2.2) ∨
    (r.1 = false ∧ (r.2.1 = bvc ∨ r.2.1 = { bvc with verifivationFailed := true }) ∧
      Exact E cps T t chain r.2.2 ∧
      Recalls (zoneAt cps chain) bl.txHashes (Known E chain n.toChainStores)
        (Known E chain r.2.2.toChainStores) ∧ SameFrame n r.2.2) := by
  intro r
  rcases handleBlockToMainChain_spec now bl bvc h.rep with ⟨h1, h2, c, hbl, hp⟩ | ⟨h1, h2, hr⟩
  · exact Or.inl ⟨h1, h2, c, hbl, hp, h.of_pushed hp⟩
  · right
    obtain ⟨⟨R, es, hrep, hfet, htried, hcoin, hsub⟩, hrec, -, hf⟩ := hr
    have hes := h.fetched hfet
    have hle : t ≤ max t now := le_max_left t now
    rw [h.checkpoints] at htried hrec
    -- what was cleared is not referred to from the chain
    have hR : ∀ r ∈ R, r ∉ blockRefs [] (entriesOf E chain) := by
      intro r hr
      have hmem := hsub hr
      have hne : es ≠ [] := by
        rintro rfl
        simp [blockRefs] at hmem
      exact hT.tried (h.valid.mono hle) h.madeOf (hcoin hne).1 (hcoin hne).2 hes
        (htried.mono (le_max_right t now)) r hmem
    rw [exactFlags_mark hR] at hrep
    exact ⟨h1, h2, ⟨hf.checkpoints.trans h.checkpoints, h.valid, hrep, hrec.prefix h.known⟩, hrec, hf⟩

theorem pop (hT : SpendsOnce E cps T) (now : ℕ) {c : ChainBlock} (hne : chain ≠ [])
    (hread : Readable E c.bei.bl) (h : Exact E cps T t (chain ++ [c]) n) :
    ∃ n', popBlockFromBlockchain E now n = (true, n') ∧ Exact E cps T t chain n' ∧
      Known E chain n'.toChainStores = Known E (chain ++ [c]) n.toChainStores ∧ SameFrame n n' := by
  obtain ⟨hv, hc⟩ := h.valid.of_append_singleton hne
  obtain ⟨n', hpop, hrep, hknown, hf⟩ := popBlockFromBlockchain_readable now h.rep hc hne hread
  have happ : entriesOf E (chain ++ [c]) = entriesOf E chain ++ c.entries E := by
    rw [entriesOf_append]
    simp [entriesOf]
  have hmade := h.madeOf
  rw [happ] at hmade hrep
  have hcb : coinbaseEntry E c.bei = coinbaseOf E c.bei.bl chain.length := by
    rw [coinbaseEntry, hc.height]
  obtain ⟨g, hg, -⟩ := vin_of_prevalidate hc.header.miner
  have htxs := hc.txs
  have ha := hc.coinbase
  rw [hcb] at htxs ha
  have hes : ∀ te ∈ c.txs, te.tx.toTransactionPrefix ∈ T := fun te hte =>
    hmade te (by simp [ChainBlock.entries, hte]) (htxs.not_coinbase te hte)
  have hrefs : blockRefs (entriesOf E chain) (c.entries E) =
      blockRefs (entriesOf E chain ++ [coinbaseOf E c.bei.bl chain.length]) c.txs := by
    rw [ChainBlock.entries, hcb, blockRefs, refsOf_gen hg, List.nil_append]
  have honce := hT.txsOK hv (fun te hte => hmade te (by simp [hte])) (isCoinbase_of_gen hg) ha hes
    htxs
  rw [← hrefs] at honce
  rw [exactFlags_purge honce] at hrep
  exact ⟨n', hpop, ⟨hf.checkpoints.trans h.checkpoints, hv, hrep, by rw [hknown]; exact h.known⟩,
    hknown, hf⟩

theorem setPool (h : Exact E cps T t chain n) {n' : Node}
    (hrep : Rep E (exactFlags (entriesOf E chain)) chain n'.toChainStores)
    (hc : n'.checkpoints = n.checkpoints)
    (hpool : ∀ id d, n'.txs.pool.transactions.get id = some d → d.tx.toTransactionPrefix ∈ T) :
    Exact E cps T t chain n' := by
  refine ⟨hc.trans h.checkpoints, h.valid, hrep, fun id tx hk => ?_⟩
  unfold Known knownIn at hk
  cases hg : n'.txs.pool.transactions.get id with
  | some d =>
    rw [hg] at hk
    exact Option.some.inj hk ▸ hpool id d hg
  | none =>
    rw [hg] at hk
    obtain ⟨te, hfind, rfl⟩ := Option.map_eq_some_iff.mp hk
    have hprop := List.find?_some hfind
    simp only [Bool.and_eq_true, Bool.not_eq_true'] at hprop
    exact h.madeOf te (List.mem_of_find?_eq_some hfind) hprop.2

theorem pool (h : Exact E cps T t chain n) {id : Hash} {d : TxDetails}
    (hd : n.txs.pool.transactions.get id = some d) : d.tx.toTransactionPrefix ∈ T :=
  h.known id d.tx (by simp [Known, knownIn, hd])

end Exact

/-- The transaction of an event, if it brings one, is of `T`. -/
def Event.BringsFrom (T : Set TransactionPrefix) : Event → Prop
  | .transaction _ tx _ => tx.toTransactionPrefix ∈ T
  | _ => True

section Run

variable {E : Env} {cps : Checkpoints} {T : Set TransactionPrefix}

theorem exact_store (hT : SpendsOnce E cps T) (now : ℕ) :
    StoreInvariant E now (fun n => ∃ t chain, Exact E cps T t chain n) where
  push := by
    rintro n bvc bl ⟨t, chain, h⟩
    rcases h.push hT now bl bvc with ⟨-, -, c, -, -, h'⟩ | ⟨-, -, h', -⟩
    · exact ⟨_, _, h'⟩
    · exact ⟨_, _, h'⟩
  pop := by
    rintro n ⟨t, chain, h⟩
    obtain ⟨chain', c, rfl⟩ := (List.eq_nil_or_concat' chain).resolve_left h.valid.ne_nil
    by_cases hne : chain' = []
    · -- the genesis block stays
      have hlen : n.blocks.length ≤ 1 := by
        rw [h.rep.blocks, blocksOf_length, hne]
        simp
      rw [popBlockFromBlockchain, if_pos hlen]
      exact ⟨_, _, h⟩
    by_cases hr : Readable E c.bei.bl
    · obtain ⟨n', hpop, h', -, -⟩ := h.pop hT now hne hr
      rw [hpop]
      exact ⟨_, _, h'⟩
    · rw [popBlockFromBlockchain_unreadable now h.rep hr]
      exact ⟨_, _, h⟩
  frame := by
    rintro n n' hs hc ⟨t, chain, h⟩
    exact ⟨t, chain, h.frame hs hc⟩

/-- An event that brings no block leaves the chain and its flags alone. -/
theorem Exact.event {t : ℕ} {chain : List ChainBlock} {n n' : Node} {e : Event}
    (h : Exact E cps T t chain n) (hb : e.isBlock = false) (hq : e.BringsFrom T)
    (he : e.apply E n = some n') : Exact E cps T t chain n' := by
  cases e with
  | block now fuel bl => simp [Event.isBlock] at hb
  | transaction now tx kept =>
    obtain rfl := Option.some.inj he
    obtain ⟨hrep, hf, hpool⟩ := handleIncomingTx_spec now tx kept h.rep
    refine h.setPool hrep hf.checkpoints fun id d hd => ?_
    rcases hpool id d hd with hd | hd
    · exact h.pool hd
    · exact hd ▸ hq
  | removeStuck now order =>
    obtain rfl := Option.some.inj he
    refine h.setPool (removeStuck_rep now order h.rep) rfl fun id d hd => ?_
    exact h.pool ((removeStuckTransactions_spec now order h.rep.txs.pool).2 id d hd)
  | pruneAltBlocks =>
    obtain rfl := Option.some.inj he
    exact h.frame rfl rfl

theorem exact_event (hT : SpendsOnce E cps T) {n n' : Node} {e : Event}
    (hn : ∃ t chain, Exact E cps T t chain n) (hq : e.BringsFrom T) (he : e.apply E n = some n') :
    ∃ t chain, Exact E cps T t chain n' := by
  by_cases hb : e.isBlock = true
  · cases e with
    | block now fuel bl =>
      obtain ⟨r, hr, rfl⟩ := Option.map_eq_some_iff.mp he
      exact (exact_store hT now).addNewBlock hn hr
    | _ => simp [Event.isBlock] at hb
  · obtain ⟨t, chain, h⟩ := hn
    exact ⟨t, chain, h.event (by simpa using hb) hq he⟩

theorem exact_of_init {now : ℕ} {n₀ : Node} (hinit : initNode E now cps = some n₀) :
    ∃ c, c.bei.bl = generateGenesisBlock ∧ ValidNext E ∅ now [] c ∧ Exact E cps T now [c] n₀ ∧
      n₀.alternativeChains = ∅ := by
  obtain ⟨c, hg, hc, hcp, hrep, halts, hknown⟩ := initNode_spec hinit
  refine ⟨c, hg, hc, ⟨hcp, .genesis hc, ?_, fun id tx hk => ?_⟩, halts⟩
  · have hone : entriesOf E [c] = c.entries E := by simp [entriesOf]
    have hempty : exactFlags [] = fun _ _ => false := by
      funext id k
      simp [exactFlags, blockRefs]
    have hl := hrep.txs.linked
    rw [← hempty] at hrep
    refine hrep.congr fun te hte k => ?_
    rw [hone] at hl hte ⊢
    exact flagsAfter_exactFlags (l := []) hl te hte k
  · rw [hknown] at hk
    simp at hk

theorem exact_of_run (hT : SpendsOnce E cps T) {now : ℕ} {n₀ n : Node} {events : List Event}
    (hinit : initNode E now cps = some n₀) (hq : ∀ e ∈ events, e.BringsFrom T)
    (hrun : run E n₀ events = some n) : ∃ t chain, Exact E cps T t chain n := by
  obtain ⟨c, -, -, h, -⟩ := exact_of_init (T := T) hinit
  exact run_induction (fun _ _ _ hn hq he => exact_event hT hn hq he) ⟨now, [c], h⟩ hq hrun

end Run

end Boolberry
