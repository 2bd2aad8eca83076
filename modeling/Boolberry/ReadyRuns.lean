import Boolberry.PoolMemory
import Boolberry.PrunedSignatures
import Boolberry.RefusedBlocks

/-!
# What a pool entry remembers holds of the chain

The id of a block stands for the whole chain below it, up to signatures, as long as ids do not
collide. So an entry that names a block of the chain names outputs that are there. It does not say
under which flag the entry was checked, nor at which height.
-/

namespace Boolberry
open KeyValue TxMemoryPool

section Lists

variable {E : Env} {l l' : List TxEntry}

theorem outputAt_indexOf (F : Flags) (hl : Linked E l) {a : UInt64} {i : ℕ} {o : StoredOutput} :
    (indexOf F l).outputAt a i = some o ↔ (outputsOf l a)[i]? = some (o.txId, o.n) ∧
      ∃ te ∈ l, te.id = o.txId ∧ te.tx.toTransactionPrefix = o.tx ∧ te.height = o.height := by
  rw [TxIndex.outputAt_some, outputs_indexOf]
  constructor
  · rintro ⟨e, hout, hget, htx, hheight⟩
    obtain ⟨l₁, te, l₂, rfl, hid, rfl⟩ := transactions_indexOf_some hl.nodup_ids hget
    exact ⟨hout, te, by simp, hid, htx, hheight⟩
  · rintro ⟨hout, te, hte, hid, htx, hheight⟩
    obtain ⟨e, he, htx', hheight', -⟩ := transactions_indexOf_mem F hl.nodup_ids hte
    rw [hid] at he
    exact ⟨e, hout, he, by rw [htx', htx], hheight'.trans hheight⟩

/-- What the index of a list finds, that of a longer list finds too. -/
theorem outputAt_append (F F' : Flags) (hl : Linked E (l ++ l')) {a : UInt64} {i : ℕ}
    {o : StoredOutput} (h : (indexOf F l).outputAt a i = some o) :
    (indexOf F' (l ++ l')).outputAt a i = some o := by
  obtain ⟨hout, te, hte, h⟩ := (outputAt_indexOf F hl.of_append).mp h
  refine (outputAt_indexOf F' hl).mpr ⟨?_, te, List.mem_append_left _ hte, h⟩
  rw [outputsOf_append, List.getElem?_append_left (List.getElem?_eq_some_iff.mp hout).1]
  exact hout

/-- What the index of a list finds below the heights of its end, it finds without the end. -/
theorem outputAt_of_append (F F' : Flags) (hl : Linked E (l ++ l')) {H : ℕ}
    (habove : ∀ te ∈ l', H ≤ te.height) {a : UInt64} {i : ℕ} {o : StoredOutput}
    (h : (indexOf F (l ++ l')).outputAt a i = some o) (hlt : o.height < H) :
    (indexOf F' l).outputAt a i = some o := by
  obtain ⟨hout, te, hte, hid, htx, hheight⟩ := (outputAt_indexOf F hl).mp h
  have hmem : te ∈ l := by
    rcases List.mem_append.mp hte with hmem | hmem
    · exact hmem
    · have := habove te hmem
      omega
  refine (outputAt_indexOf F' hl.of_append).mpr ⟨?_, te, hmem, hid, htx, hheight⟩
  rw [outputsOf_append] at hout
  rcases Nat.lt_or_ge i (outputsOf l a).length with hi | hi
  · rwa [List.getElem?_append_left hi] at hout
  · -- an output of the end belongs to a transaction of the end
    rw [List.getElem?_append_right hi] at hout
    obtain ⟨te', hte', hid', -⟩ := exists_of_mem_outputsOf (List.mem_of_getElem? hout)
    have hnd := hl.nodup_ids
    rw [List.map_append, List.nodup_append] at hnd
    exact absurd (hid.trans hid'.symm)
      (hnd.2.2 te.id (List.mem_map_of_mem hmem) te'.id (List.mem_map_of_mem hte'))

end Lists

/-- The transactions that can be on a chain of blocks of `B`: coinbases, and what was handed in. -/
def carried (B : Set Block) (T : Set TransactionPrefix) : Set TransactionPrefix :=
  {p | ∃ b ∈ B, b.minerTx.toTransactionPrefix = p} ∪ T

/-- The ids of the blocks of `B`, and those of their transactions, do not collide. -/
structure Distinct (E : Env) (B : Set Block) (T : Set TransactionPrefix) : Prop where
  genesis : generateGenesisBlock ∈ B
  blocks : Set.InjOn (getBlockHash E) B
  transactions : Set.InjOn (fun p => E.cnFastHash (writeTransactionPrefix p)) (carried B T)

/-- A valid chain of blocks of `B` with transactions of `T`. -/
structure Grown (E : Env) (cps : Checkpoints) (B : Set Block) (T : Set TransactionPrefix)
    (chain : List ChainBlock) : Prop where
  valid : ∃ t, ValidChain E cps t chain
  line : Line E B (blocksOf chain)
  made : ∀ te ∈ entriesOf E chain, te.tx.toTransactionPrefix ∈ carried B T

theorem map_eq_of_map_eq {α β γ : Type} {f : α → β} {g : α → γ} {l l' : List α}
    (h : l.map f = l'.map f) (hg : ∀ a ∈ l, ∀ b ∈ l', f a = f b → g a = g b) :
    l.map g = l'.map g := by
  induction l generalizing l' with
  | nil =>
    rw [List.map_nil, eq_comm, List.map_eq_nil_iff] at h
    rw [h]
  | cons a l ih =>
    cases l' with
    | nil => simp at h
    | cons b l' =>
      obtain ⟨hab, hrest⟩ := List.cons.inj h
      rw [List.map_cons, List.map_cons, hg a (by simp) b (by simp) hab,
        ih hrest fun a' ha' b' hb' => hg a' (by simp [ha']) b' (by simp [hb'])]

theorem ValidChain.entry_height {E : Env} {cps : Checkpoints} {t i : ℕ} {chain : List ChainBlock}
    {c : ChainBlock} (hv : ValidChain E cps t chain) (hc : chain[i]? = some c) {te : TxEntry}
    (hte : te ∈ c.entries E) : te.height = i := by
  rcases List.mem_cons.mp hte with rfl | hte
  · exact hv.height hc
  · obtain ⟨cps', hn, -⟩ := hv.at hc
    have hlt := (List.getElem?_eq_some_iff.mp hc).1
    rw [hn.txs.height te hte, List.length_take_of_le hlt.le]

namespace Grown

variable {E : Env} {cps : Checkpoints} {B : Set Block} {T : Set TransactionPrefix}
  {P Q : List ChainBlock}

theorem linked (h : Grown E cps B T P) : Linked E (entriesOf E P) := by
  obtain ⟨t, hv⟩ := h.valid
  exact hv.linked

theorem height_lt (h : Grown E cps B T P) {te : TxEntry} (hte : te ∈ entriesOf E P) :
    te.height < P.length := by
  obtain ⟨t, hv⟩ := h.valid
  obtain ⟨i, c, hi, hmem⟩ := mem_entriesOf_iff.mp hte
  rw [hv.entry_height hi hmem]
  exact (List.getElem?_eq_some_iff.mp hi).1

theorem le_height_drop (h : Grown E cps B T P) (k : ℕ) {te : TxEntry}
    (hte : te ∈ entriesOf E (P.drop k)) : k ≤ te.height := by
  obtain ⟨t, hv⟩ := h.valid
  obtain ⟨i, c, hi, hmem⟩ := mem_entriesOf_iff.mp hte
  rw [List.getElem?_drop] at hi
  rw [hv.entry_height hi hmem]
  exact Nat.le_add_right k i

theorem take (h : Grown E cps B T P) {k : ℕ} (hk : k ≠ 0) : Grown E cps B T (P.take k) := by
  obtain ⟨t, hv⟩ := h.valid
  refine ⟨⟨t, hv.take hk⟩, ?_, fun te hte => h.made te ?_⟩
  · have hline := h.line.take hk
    rwa [blocksOf, ← List.map_take] at hline
  · rw [← List.take_append_drop k P, entriesOf_append]
    exact List.mem_append_left _ hte

theorem bare_eq (hd : Distinct E B T) (hP : Grown E cps B T P) (hQ : Grown E cps B T Q)
    (htop : getTopBlockId E (blocksOf P) = getTopBlockId E (blocksOf Q)) :
    P.length = Q.length ∧
      (entriesOf E P).map TxEntry.bare = (entriesOf E Q).map TxEntry.bare := by
  obtain ⟨t, hv⟩ := hP.valid
  obtain ⟨t', hv'⟩ := hQ.valid
  obtain ⟨rs, bei, hrs⟩ := (List.eq_nil_or_concat' (blocksOf P)).resolve_left hP.line.ne_nil
  obtain ⟨rs', bei', hrs'⟩ := (List.eq_nil_or_concat' (blocksOf Q)).resolve_left hQ.line.ne_nil
  have hline := hP.line
  have hline' := hQ.line
  rw [hrs] at hline htop
  rw [hrs'] at hline' htop
  rw [getTopBlockId, getTopBlockId, List.getLast?_concat, List.getLast?_concat] at htop
  have hbl : bei.bl = bei'.bl := hd.blocks (hline.mem bei (by simp)) (hline'.mem bei' (by simp)) htop
  have hkeys := hline.unique hd.blocks hline' hbl
  rw [← hrs, ← hrs'] at hkeys
  have hlen : P.length = Q.length := by
    have := congrArg List.length hkeys
    simpa [blocksOf] using this
  refine ⟨hlen, ?_⟩
  -- an entry is its id and its height, since ids do not collide
  refine map_eq_of_map_eq (f := fun te => (te.id, te.height)) ?_ fun te hte te' hte' heq => ?_
  · rw [idHeights_entriesOf hv, idHeights_entriesOf hv']
    let G (q : Block × ℕ × WideDifficulty × ℕ) : List (Hash × ℕ) :=
      (getTransactionHash E q.1.minerTx, q.2.1) :: q.1.txHashes.map fun id => (id, q.2.1)
    have hG : ∀ bs : List BlockExtendedInfo, bs.flatMap (fun bei =>
        (getTransactionHash E bei.bl.minerTx, bei.height) ::
          bei.bl.txHashes.map fun id => (id, bei.height)) =
        (bs.map BlockExtendedInfo.key).flatMap G := fun bs => by
      rw [List.flatMap_map]
      rfl
    rw [hG, hG, hkeys]
  · obtain ⟨hid, hheight⟩ := Prod.mk.inj heq
    have hhash : ∀ {l : List TxEntry}, Linked E l → ∀ te ∈ l, getTransactionHash E te.tx = te.id := by
      intro l hl te hte
      obtain ⟨l₁, l₂, rfl⟩ := List.append_of_mem hte
      exact hl.addable.hash
    have hpre : te.tx.toTransactionPrefix = te'.tx.toTransactionPrefix := by
      refine hd.transactions (hP.made te hte) (hQ.made te' hte') ?_
      have h := hhash hP.linked te hte
      have h' := hhash hQ.linked te' hte'
      exact h.trans (hid.trans h'.symm)
    change (⟨te.id, ⟨te.tx.toTransactionPrefix, []⟩, te.height⟩ : TxEntry) =
      ⟨te'.id, ⟨te'.tx.toTransactionPrefix, []⟩, te'.height⟩
    rw [hpre, hid, hheight]

theorem outputAt_eq (hd : Distinct E B T) (hP : Grown E cps B T P) (hQ : Grown E cps B T Q)
    (htop : getTopBlockId E (blocksOf P) = getTopBlockId E (blocksOf Q)) (F F' : Flags) :
    (indexOf F (entriesOf E P)).outputAt = (indexOf F' (entriesOf E Q)).outputAt ∧
      (indexOf F (entriesOf E P)).spentKeys = (indexOf F' (entriesOf E Q)).spentKeys := by
  have hsame := sameTxs_of_bare hP.linked hQ.linked (hP.bare_eq hd hQ htop).2 F F'
  exact ⟨TxIndex.outputAt_congr hsame.outputs hsame.transactions, hsame.spentKeys⟩

/-- Outputs below the top are found in the chain up to their height, and the other way round. -/
theorem outputAt_take (h : Grown E cps B T P) (F F' : Flags) {k : ℕ} {a : UInt64} {i : ℕ} {o : StoredOutput}
    (ho : (indexOf F (entriesOf E P)).outputAt a i = some o) (hlt : o.height < k) :
    (indexOf F' (entriesOf E (P.take k))).outputAt a i = some o := by
  have hl := h.linked
  rw [← List.take_append_drop k P, entriesOf_append] at ho hl
  exact outputAt_of_append F F' hl (fun te hte => h.le_height_drop k hte) ho hlt

theorem outputAt_of_take (h : Grown E cps B T P) (F F' : Flags) (k : ℕ) {a : UInt64} {i : ℕ}
    {o : StoredOutput} (ho : (indexOf F (entriesOf E (P.take k))).outputAt a i = some o) :
    (indexOf F' (entriesOf E P)).outputAt a i = some o := by
  have hl := h.linked
  rw [← List.take_append_drop k P, entriesOf_append] at hl ⊢
  exact outputAt_append F F' hl ho

theorem height_outputAt (h : Grown E cps B T P) (F : Flags) {a : UInt64} {i : ℕ} {o : StoredOutput}
    (ho : (indexOf F (entriesOf E P)).outputAt a i = some o) : o.height < P.length := by
  obtain ⟨-, te, hte, -, -, hheight⟩ := (outputAt_indexOf F h.linked).mp ho
  rw [← hheight]
  exact h.height_lt hte

end Grown

theorem getTopBlockId_blocksOf_take {E : Env} {P : List ChainBlock} {k : ℕ} {bei : BlockExtendedInfo}
    (hk : (blocksOf P)[k]? = some bei) :
    getTopBlockId E (blocksOf (P.take (k + 1))) = getBlockHash E bei.bl := by
  rw [blocksOf, List.map_take]
  exact (getTopBlockId_take hk).1

/-- Every input has a ring that is on the chain and may be used. -/
def RingsIn (s : TxIndex) (tx : Transaction) : Prop :=
  ∀ inp ∈ tx.vin, ∃ txin, inp = .toKey txin ∧ RingFound s txin

theorem RingFound.mono {s s' : TxIndex} {txin : TxinToKey} (h : RingFound s txin)
    (hat : ∀ i ∈ relativeOutputOffsetsToAbsolute txin.keyOffsets, ∀ o, s.ringAt txin i = some o →
      s'.ringAt txin i = some o) : RingFound s' txin := by
  refine ⟨h.ne_nil, fun i hi => ?_⟩
  obtain ⟨o, ho, hkey⟩ := h.found i hi
  exact ⟨o, hat i hi o ho, hkey⟩

/-- The entry was checked, if its pair says so, and its rings are on the chain below that block. -/
def UsedOK (E : Env) (cps : Checkpoints) (B : Set Block) (T : Set TransactionPrefix) (d : TxDetails) :
    Prop :=
  d.maxUsedBlockId ≠ nullHash → ∃ P, Grown E cps B T P ∧
    getTopBlockId E (blocksOf P) = d.maxUsedBlockId ∧
    RingsIn (indexOf (fun _ _ => false) (entriesOf E P)) d.tx

/-- The inputs of the entry did not pass at time `now` under the block that its failure names. -/
def FailedOK (E : Env) (cps : Checkpoints) (B : Set Block) (T : Set TransactionPrefix) (now : ℕ)
    (d : TxDetails) : Prop :=
  d.lastFailedId ≠ nullHash → ∃ F P zone, Grown E cps B T P ∧
    getTopBlockId E (blocksOf P) = d.lastFailedId ∧ P.length = d.lastFailedHeight + 1 ∧
    (⟨E, now, blocksOf P, zone⟩ : ChainView).checkTxInputs (indexOf F (entriesOf E P)) d.tx = none

section Memory

variable {E : Env} {cps : Checkpoints} {B : Set Block} {T : Set TransactionPrefix}
  {chain : List ChainBlock} {F : Flags} {now : ℕ} {zone : Bool} {index : TxIndex} {tx : Transaction}

theorem exists_rings_of_check (h : Grown E cps B T chain)
    (hbelow : FindsBelow chain.length (indexOf F (entriesOf E chain)) index) {r : ℕ × Hash}
    (hr : (⟨E, now, blocksOf chain, zone⟩ : ChainView).checkTxInputs index tx = some r) :
    ∃ P, Grown E cps B T P ∧ getTopBlockId E (blocksOf P) = r.2 ∧
      RingsIn (indexOf (fun _ _ => false) (entriesOf E P)) tx := by
  obtain ⟨hall, -, hm, bei, hbei, hid⟩ := checkTxInputs_iff.mp hr
  dsimp only at hall hbei hid
  have hlt : r.1 < chain.length := by
    rw [← blocksOf_length]
    exact (List.getElem?_eq_some_iff.mp hbei).1
  refine ⟨chain.take (r.1 + 1), h.take (Nat.succ_ne_zero _), ?_, fun inp hinp => ?_⟩
  · rw [getTopBlockId_blocksOf_take hbei, hid]
  · obtain ⟨txin, hpass⟩ := hall inp hinp
    refine ⟨txin, hpass.toKey, hpass.found.mono fun i hi o ho => ?_⟩
    -- the output is not above the largest height
    have hmem : o ∈ index.rings tx.vin := by
      refine List.mem_flatMap.mpr ⟨txin, List.mem_filterMap.mpr ⟨inp, hinp, by rw [hpass.toKey]; rfl⟩,
        List.mem_filterMap.mpr ⟨i, hi, ho⟩⟩
    have hle : o.height ≤ r.1 := hm ▸ le_maxHeightOf hmem 0
    exact h.outputAt_take F _ (hbelow _ _ o ho (by omega)) (by omega)

/-- A node that represents a chain which the ids of its blocks and transactions stand for. -/
structure Sourced (E : Env) (cps : Checkpoints) (B : Set Block) (T : Set TransactionPrefix) (n : Node) :
    Prop where
  lined : Lined E cps B n
  known : ∃ F chain, Represents E cps F chain n ∧
    ∀ id tx, Known E chain n.toChainStores id = some tx → tx.toTransactionPrefix ∈ T

theorem Sourced.grown {n : Node} (h : Sourced E cps B T n) :
    ∃ F chain, Represents E cps F chain n ∧ Grown E cps B T chain := by
  obtain ⟨F, chain, hrep, hknown⟩ := h.known
  have hrep' := hrep
  obtain ⟨-, ⟨t, hv⟩, hstores⟩ := hrep'
  have hline := h.lined.line
  rw [hstores.blocks] at hline
  refine ⟨F, chain, hrep, ⟨t, hv⟩, hline, fun te hte => ?_⟩
  obtain ⟨i, c, hi, hmem⟩ := mem_entriesOf_iff.mp hte
  have hbei : c.bei ∈ blocksOf chain := List.mem_map_of_mem (List.mem_of_getElem? hi)
  rcases List.mem_cons.mp hmem with rfl | hmem
  · exact Or.inl ⟨c.bei.bl, hline.mem _ hbei, rfl⟩
  · obtain ⟨cps', hn, -⟩ := hv.at hi
    exact Or.inr (hknown te.id te.tx (hstores.known hte (hn.txs.not_coinbase te hmem)))

theorem getBlockIdByHeight_eq {n : Node} {k : ℕ} {id : Hash} (h : getBlockIdByHeight E n k = id)
    (hne : id ≠ nullHash) : ∃ bei, n.blocks[k]? = some bei ∧ getBlockHash E bei.bl = id := by
  unfold getBlockIdByHeight at h
  cases hk : n.blocks[k]? with
  | none =>
    rw [hk] at h
    exact absurd h.symm hne
  | some bei =>
    rw [hk] at h
    exact ⟨bei, rfl, h⟩

theorem ringsIn_of_trusted {n : Node} {d : TxDetails} (hd : Distinct E B T)
    (hrep : Represents E cps F chain n) (hg : Grown E cps B T chain) (hu : UsedOK E cps B T d)
    (ht : Trusted E n d) : RingsIn n.txs.index d.tx := by
  obtain ⟨P, hP, htop, hrings⟩ := hu ht.checked
  obtain ⟨bei, hbei, hid⟩ := getBlockIdByHeight_eq ht.onChain ht.checked
  obtain ⟨-, -, hstores⟩ := hrep
  rw [hstores.blocks] at hbei
  have hQ := hg.take (Nat.succ_ne_zero d.maxUsedBlockHeight)
  have heq := hP.outputAt_eq hd hQ (by rw [htop, getTopBlockId_blocksOf_take hbei, hid])
    (fun _ _ => false) F
  rw [hstores.txs.index]
  intro inp hinp
  obtain ⟨txin, htoKey, hfound⟩ := hrings inp hinp
  refine ⟨txin, htoKey, hfound.mono fun i _ o ho => ?_⟩
  unfold TxIndex.ringAt at ho ⊢
  rw [heq.1] at ho
  exact hg.outputAt_of_take F F _ ho

/-- Outputs that may be spent now, and the signatures that spend them, unless nobody looks. -/
def Spendable (E : Env) (now : ℕ) (n : Node) (tx : Transaction) : Prop :=
  (∀ txin, Txin.toKey txin ∈ tx.vin → RingUnlocked n.txs.index now n.blocks.length txin) ∧
    (n.isInCheckpointZone = true ∨
      List.Forall₂ (Signs E n.txs.index (getTransactionHash E tx)) tx.vin tx.signatures)

/-- With its rings on the chain and its key images fresh, a transaction passes when it is spendable. -/
theorem check_isSome_iff_spendable {n : Node} (hrep : Represents E cps F chain n)
    (hg : Grown E cps B T chain) (hrings : RingsIn n.txs.index tx)
    (hfresh : n.txs.index.haveTxKeyimgesAsSpent tx = false) :
    ((n.view E now).checkTxInputs n.txs.index tx).isSome = true ↔ Spendable E now n tx := by
  obtain ⟨-, -, hstores⟩ := hrep
  have hblocks : (n.view E now).blocks = blocksOf chain := hstores.blocks
  have hne : (n.view E now).blocks ≠ [] := by
    rw [hblocks]
    exact hg.line.ne_nil
  rw [checkTxInputs_isSome_iff hne]
  · refine and_congr_left' ⟨fun hall txin hin => ?_, fun hunlocked inp hinp => ?_⟩
    · obtain ⟨txin', hpass⟩ := hall _ hin
      obtain rfl := Txin.toKey.inj hpass.toKey
      exact hpass.unlocked
    · obtain ⟨txin, rfl, hfound⟩ := hrings inp hinp
      refine ⟨txin, rfl, hfound, ?_, hunlocked txin hinp⟩
      have hnone := List.any_eq_false.mp hfresh _ hinp
      simpa using hnone
  · intro o ho
    obtain ⟨txin, -, ho⟩ := List.mem_flatMap.mp ho
    obtain ⟨i, -, hat⟩ := List.mem_filterMap.mp ho
    rw [hblocks, blocksOf_length]
    rw [hstores.txs.index] at hat
    exact hg.height_outputAt F hat

/-- An entry is ready only if it passes, unless it is trusted and not spendable. -/
theorem ready_iff_of_used {n : Node} {d : TxDetails} (hd : Distinct E B T)
    (hrep : Represents E cps F chain n) (hg : Grown E cps B T chain) (hu : UsedOK E cps B T d) :
    ((isTransactionReadyToGo E now n d).1 = none →
        ((n.view E now).checkTxInputs n.txs.index d.tx).isSome = true) ↔
      (Trusted E n d → n.txs.index.haveTxKeyimgesAsSpent d.tx = false → Spendable E now n d.tx) := by
  by_cases ht : Trusted E n d
  · have hrings := ringsIn_of_trusted hd hrep hg hu ht
    rw [ready_of_trusted ht]
    constructor
    · intro h _ hfresh
      exact (check_isSome_iff_spendable hrep hg hrings hfresh).mp (h hfresh)
    · intro h hfresh
      exact (check_isSome_iff_spendable hrep hg hrings hfresh).mpr (h ht hfresh)
  · exact ⟨fun _ ht' => absurd ht' ht, fun _ => checked_of_ready ht⟩

/-- A check depends on what the index finds, on the key images and on the height; the flag only makes
it milder. -/
theorem check_congr {s s' : TxIndex} (v v' : ChainView) (henv : v.env = v'.env) (hnow : v.now = v'.now)
    (hlen : v.blocks.length = v'.blocks.length) (hzone : v.zone = true → v'.zone = true)
    (hat : s.outputAt = s'.outputAt) (hkeys : s.spentKeys = s'.spentKeys)
    (h : (v.checkTxInputs s tx).isSome = true) : (v'.checkTxInputs s' tx).isSome = true := by
  obtain ⟨r, hr⟩ := Option.isSome_iff_exists.mp h
  obtain ⟨hall, hsigned, hm, bei, hbei, -⟩ := checkTxInputs_iff.mp hr
  have hring : s.ring = s'.ring := by
    funext txin
    unfold TxIndex.ring TxIndex.ringAt
    rw [hat]
  have hlt := (List.getElem?_eq_some_iff.mp hbei).1
  rw [hlen] at hlt
  refine Option.isSome_iff_exists.mpr ⟨(r.1, getBlockHash v'.env (v'.blocks[r.1]).bl),
    checkTxInputs_iff.mpr ⟨fun inp hinp => ?_, ?_, ?_, _, List.getElem?_eq_getElem hlt, rfl⟩⟩
  · obtain ⟨txin, hpass⟩ := hall inp hinp
    refine ⟨txin, hpass.toKey, hpass.found.mono fun i _ o ho => ?_, ?_, ?_⟩
    · unfold TxIndex.ringAt at ho ⊢
      rwa [← hat]
    · rw [← hkeys]
      exact hpass.fresh
    · have hunlocked := hpass.unlocked
      unfold RingUnlocked at hunlocked ⊢
      rwa [hring, hnow, hlen] at hunlocked
  · refine hsigned.imp hzone fun hsigned => hsigned.imp fun inp sig hsign => ?_
    unfold Signs at hsign ⊢
    rwa [hring, henv] at hsign
  · rw [hm]
    unfold TxIndex.rings
    rw [hring]

/-- A failure under the top block is still one, unless the flag came to be set. -/
theorem check_none_of_failed {n : Node} {d : TxDetails} (hd : Distinct E B T)
    (hrep : Represents E cps F chain n) (hg : Grown E cps B T chain)
    (hf : FailedOK E cps B T now d) (hne : d.lastFailedId ≠ nullHash)
    (hat : getBlockIdByHeight E n d.lastFailedHeight = d.lastFailedId)
    (htop : d.lastFailedHeight + 1 = n.blocks.length) (hflag : n.isInCheckpointZone = false) :
    (n.view E now).checkTxInputs n.txs.index d.tx = none := by
  obtain ⟨F', P, zone, hP, hid, hlen, hnone⟩ := hf hne
  obtain ⟨bei, hbei, hbl⟩ := getBlockIdByHeight_eq hat hne
  obtain ⟨-, -, hstores⟩ := hrep
  have hlast : getTopBlockId E (blocksOf chain) = d.lastFailedId := by
    rw [hstores.blocks] at hbei htop
    rw [← getTopBlockId_blocksOf_take hbei] at hbl
    rwa [List.take_of_length_le (by rw [← blocksOf_length]; omega)] at hbl
  have heq := hg.outputAt_eq hd hP (hlast.trans hid.symm) F F'
  rw [← hstores.txs.index] at heq
  by_contra hpass
  have hsome := check_congr (n.view E now) ⟨E, now, blocksOf P, zone⟩ rfl rfl
    (by rw [blocksOf_length, hlen, htop]; rfl) (fun h => by rw [Node.view, hflag] at h; cases h)
    heq.1 heq.2 (Option.isSome_iff_ne_none.mpr hpass)
  rw [hnone] at hsome
  cases hsome

end Memory

/-- What every way to make or to look at an entry keeps; entries are looked at at times of `C`. -/
structure EntryInvariant (E : Env) (cps : Checkpoints) (B : Set Block) (T : Set TransactionPrefix)
    (C : Set ℕ) (G : TxDetails → Prop) : Prop where
  admits : ∀ n now zone, Sourced E cps B T n →
    Admits ⟨E, now, n.blocks, zone⟩ n.txs.index G
  checked : ∀ n now d, Sourced E cps B T n → now ∈ C → G d →
    G (isTransactionReadyToGo E now n d).2

theorem isTransactionReadyToGo_entry (E : Env) (now : ℕ) (n : Node) (d : TxDetails) :
    (isTransactionReadyToGo E now n d).2 = d ∨
    (∃ maxUsed, (n.view E now).checkTxInputs n.txs.index d.tx = some maxUsed ∧
      (isTransactionReadyToGo E now n d).2 = d.passed maxUsed) ∨
    (∃ m, (n.view E now).checkTxInputs n.txs.index d.tx = none ∧
      (isTransactionReadyToGo E now n d).2 = d.failed E n m) := by
  unfold isTransactionReadyToGo
  rcases readyInputs_cases E now n d with ⟨-, hr⟩ | ⟨-, reason, hr⟩ | ⟨maxUsed, hc, hr⟩ |
    ⟨reason, m, hc, hr⟩
  · rw [hr]
    dsimp only
    split_ifs
    · exact Or.inl rfl
    · exact Or.inl rfl
  · rw [hr]
    exact Or.inl rfl
  · rw [hr]
    dsimp only
    refine Or.inr (Or.inl ⟨maxUsed, hc, ?_⟩)
    split_ifs
    · rfl
    · rfl
  · rw [hr]
    exact Or.inr (Or.inr ⟨m, hc, rfl⟩)

theorem getTopBlockId_eq_getBlockIdByHeight {E : Env} {n : Node} {chain : List ChainBlock}
    (h : n.blocks = blocksOf chain) :
    getTopBlockId E (blocksOf chain) = getBlockIdByHeight E n ((blocksOf chain).length - 1) := by
  have hlast : (blocksOf chain).getLast? = n.blocks[(blocksOf chain).length - 1]? := by
    rw [h, List.getLast?_eq_getElem?]
  unfold getTopBlockId getBlockIdByHeight
  cases hk : n.blocks[(blocksOf chain).length - 1]? with
  | none => rw [hlast, hk]
  | some bei => rw [hlast, hk]

section Entries

variable {E : Env} {cps : Checkpoints} {B : Set Block} {T : Set TransactionPrefix}

/-- Whenever the entries are looked at, their pairs name rings that are on the chain. -/
theorem usedOK_entries : EntryInvariant E cps B T Set.univ (UsedOK E cps B T) where
  admits n now zone h := by
    obtain ⟨F, chain, ⟨-, -, hstores⟩, hg⟩ := h.grown
    intro index tx fee kept hbelow
    have hblocks : n.blocks = blocksOf chain := hstores.blocks
    dsimp only at hbelow ⊢
    rw [hblocks, blocksOf_length, hstores.txs.index] at hbelow
    rw [hblocks]
    cases hc : (⟨E, now, blocksOf chain, zone⟩ : ChainView).checkTxInputs index tx with
    | none => exact fun hne => absurd rfl hne
    | some r => exact fun _ => exists_rings_of_check hg hbelow hc
  checked n now d h _ hd := by
    obtain ⟨F, chain, ⟨-, -, hstores⟩, hg⟩ := h.grown
    rcases isTransactionReadyToGo_entry E now n d with he | ⟨maxUsed, hc, he⟩ | ⟨m, -, he⟩
    · rw [he]
      exact hd
    · have hblocks : n.blocks = blocksOf chain := hstores.blocks
      rw [Node.view, hblocks, hstores.txs.index] at hc
      rw [he]
      exact fun _ => exists_rings_of_check hg (FindsBelow.refl _ _) hc
    · rw [he]
      exact hd

theorem failedOK_entries (now : ℕ) : EntryInvariant E cps B T {now} (FailedOK E cps B T now) where
  admits n now' zone h index tx fee kept hbelow hne := absurd rfl hne
  checked n now' d h hnow hd := by
    obtain rfl := Set.mem_singleton_iff.mp hnow
    obtain ⟨F, chain, ⟨-, -, hstores⟩, hg⟩ := h.grown
    rcases isTransactionReadyToGo_entry E now' n d with he | ⟨maxUsed, -, he⟩ | ⟨m, hc, he⟩
    · rw [he]
      exact hd
    · rw [he]
      exact hd
    · rw [he]
      intro _
      have hblocks : n.blocks = blocksOf chain := hstores.blocks
      have hpos : 0 < chain.length := by
        rw [← blocksOf_length]
        exact List.length_pos_iff.mpr hg.line.ne_nil
      rw [Node.view, hblocks, hstores.txs.index] at hc
      refine ⟨F, chain, n.isInCheckpointZone, hg, ?_, ?_, hc⟩
      · rw [TxDetails.failed, hblocks]
        exact getTopBlockId_eq_getBlockIdByHeight hblocks
      · change chain.length = n.blocks.length - 1 + 1
        rw [hblocks, blocksOf_length]
        omega

end Entries

section Blocks

variable {E : Env} {cps : Checkpoints} {B : Set Block} {T : Set TransactionPrefix} {n n' : Node}

namespace Sourced

theorem frame (h : Sourced E cps B T n) (hl : Lined E cps B n')
    (hs : n'.toChainStores = n.toChainStores) (hc : n'.checkpoints = n.checkpoints) :
    Sourced E cps B T n' := by
  obtain ⟨F, chain, ⟨hcp, hv, hrep⟩, hknown⟩ := h.known
  exact ⟨hl, F, chain, ⟨hc.trans hcp, hv, by rw [hs]; exact hrep⟩, by rw [hs]; exact hknown⟩

theorem push (now : ℕ) (h : Sourced E cps B T n) {bl : Block} (hb : bl ∈ B)
    (bvc : BlockVerificationContext) :
    Sourced E cps B T (handleBlockToMainChain E now bvc n bl).2.2 := by
  obtain ⟨F, chain, ⟨hcp, ⟨t, hv⟩, hrep⟩, hknown⟩ := h.known
  refine ⟨h.lined.push now hb bvc, ?_⟩
  rcases handleBlockToMainChain_spec now bl bvc hrep with ⟨-, -, c, -, hp⟩ | ⟨-, -, hr⟩
  · have hvalid := hp.valid
    rw [hcp] at hvalid
    exact ⟨_, _, ⟨hp.frame.checkpoints.trans hcp, ⟨_, hv.snoc' hvalid⟩, hp.rep⟩,
      hp.recalls.prefix hknown⟩
  · obtain ⟨R, es, hrep', -⟩ := hr.rep
    exact ⟨_, _, ⟨hr.frame.checkpoints.trans hcp, ⟨t, hv⟩, hrep'⟩, hr.recalls.prefix hknown⟩

theorem pop (now : ℕ) (h : Sourced E cps B T n) :
    Sourced E cps B T (popBlockFromBlockchain E now n).2 := by
  obtain ⟨F, chain, ⟨hcp, ⟨t, hv⟩, hrep⟩, hknown⟩ := h.known
  refine ⟨?_, ?_⟩
  · rcases h.lined.pop_cases now with ⟨hpop, -⟩ | ⟨n', hpop, hn', -⟩
    · rw [hpop]
      exact h.lined
    · rw [hpop]
      exact hn'
  · rcases popBlockFromBlockchain_spec now hv hrep with
      hpop | ⟨n', chain', c, -, hv', -, -, hpop, hrep', hk, hf⟩
    · rw [hpop]
      exact h.known
    · rw [hpop]
      refine ⟨_, chain', ⟨hf.checkpoints.trans hcp, ⟨t, hv'⟩, hrep'⟩, ?_⟩
      rw [hk]
      exact hknown

end Sourced

/-- A node of that kind whose pool entries are of `G`. -/
structure Remembers (E : Env) (cps : Checkpoints) (B : Set Block) (T : Set TransactionPrefix)
    (G : TxDetails → Prop) (n : Node) : Prop where
  sourced : Sourced E cps B T n
  pool : PoolAll G n.txs.pool

theorem Remembers.frame {G : TxDetails → Prop} (h : Remembers E cps B T G n)
    (hl : Lined E cps B n') (hs : n'.toChainStores = n.toChainStores)
    (hc : n'.checkpoints = n.checkpoints) : Remembers E cps B T G n' :=
  ⟨h.sourced.frame hl hs hc, by rw [hs]; exact h.pool⟩

/-- Whatever a block of `B` causes, entries that come back to the pool are of `G`. -/
theorem remembers_alt {C : Set ℕ} {G : TxDetails → Prop} (hG : EntryInvariant E cps B T C G)
    (now : ℕ) (hinj : Set.InjOn (getBlockHash E) B) :
    AltInvariant E now (Remembers E cps B T G) (· ∈ B) (· ∈ B) (1 ≤ ·) where
  push n bvc bl hn hb :=
    ⟨hn.sourced.push now hb bvc,
      handleBlockToMainChain_pool (fun zone => hG.admits n now zone hn.sourced) hn.pool bvc bl⟩
  pop n s hn _ _ :=
    ⟨hn.sourced.pop now, popBlockFromBlockchain_pool (hG.admits n now _ hn.sourced) hn.pool⟩
  invalid n bei id hn := by
    obtain ⟨hs, hf⟩ := addBlockAsInvalid_stores n bei id
    exact hn.frame ((lined_alt now hinj).invalid n bei id hn.sourced.lined) hs hf.checkpoints
  erase n id hn := hn.frame ((lined_alt now hinj).erase n id hn.sourced.lined) rfl rfl
  add bvc n b a hn hb hpass hchain hatt := by
    have hlined := (lined_alt now hinj).add bvc n b a hn.sourced.lined hb hpass hchain hatt
    have heff := addAlternativeBlock_effect E bvc n b a
    split
    · rename_i r hr
      rw [hr] at heff hlined
      obtain ⟨-, hs, hf, -⟩ := heff
      exact hn.frame hlined hs hf.checkpoints
    · rename_i r hr
      rw [hr] at heff hlined
      exact ⟨hn.frame hlined.1 heff.1 heff.2.1, hlined.2⟩
  main n s h bei hn hs hle hbei := (lined_alt now hinj).main n s h bei hn.sourced.lined hs hle hbei
  alt n id bei hn hget := (lined_alt now hinj).alt n id bei hn.sourced.lined hget

end Blocks

/-- The pool with another entry under `id`. -/
def setEntry (p : TxMemoryPool) (id : Hash) (d : TxDetails) : TxMemoryPool :=
  { p with transactions := p.transactions.set id d }

/-- A look at the entry `id`: the decision writes to the entry itself. -/
def lookAt (E : Env) (now : ℕ) (n : Node) (id : Hash) : Node :=
  match n.txs.pool.transactions.get id with
  | none => n
  | some d =>
      let txd := (isTransactionReadyToGo E now n d).2
      { n with txs := { n.txs with pool := setEntry n.txs.pool id txd } }

/-- What happens to a node, looks at its entries among it. -/
inductive PoolEvent where
  | node (e : Event)
  | look (now : ℕ) (id : Hash)

def PoolEvent.apply (E : Env) (n : Node) : PoolEvent → Option Node
  | .node e => e.apply E n
  | .look now id => some (lookAt E now n id)

def poolRun (E : Env) : Node → List PoolEvent → Option Node
  | n, [] => some n
  | n, e :: l =>
      match e.apply E n with
      | none => none
      | some n' => poolRun E n' l

/-- Blocks of `B`, transactions of `T`, and looks at times of `C`. -/
def PoolEvent.Within (B : Set Block) (T : Set TransactionPrefix) (C : Set ℕ) : PoolEvent → Prop
  | .node (.block _ _ b) => b ∈ B
  | .node e => e.BringsFrom T
  | .look now _ => now ∈ C

section Events

variable {E : Env} {cps : Checkpoints} {B : Set Block} {T : Set TransactionPrefix} {C : Set ℕ}
  {G : TxDetails → Prop} {n n' : Node}

theorem isTransactionReadyToGo_same (E : Env) (now : ℕ) (n : Node) (d : TxDetails) :
    (isTransactionReadyToGo E now n d).2.tx = d.tx ∧
      (isTransactionReadyToGo E now n d).2.blobSize = d.blobSize ∧
      (isTransactionReadyToGo E now n d).2.fee = d.fee := by
  rcases isTransactionReadyToGo_entry E now n d with he | ⟨maxUsed, -, he⟩ | ⟨m, -, he⟩
  · rw [he]
    exact ⟨rfl, rfl, rfl⟩
  · rw [he]
    exact ⟨rfl, rfl, rfl⟩
  · rw [he]
    exact ⟨rfl, rfl, rfl⟩

theorem setEntry_get (p : TxMemoryPool) (id id' : Hash) (d : TxDetails) :
    (setEntry p id d).transactions.get id' =
      if id' = id then some d else p.transactions.get id' :=
  Map.get_set ..

theorem poolOK_setEntry {p : TxMemoryPool} {id : Hash} {d d' : TxDetails} (h : PoolOK E p)
    (hd : p.transactions.get id = some d) (htx : d'.tx = d.tx) (hsize : d'.blobSize = d.blobSize)
    (hfee : d'.fee = d.fee) : PoolOK E (setEntry p id d') := by
  refine ⟨fun id' e he => ?_, fun k id' => ?_, h.nonempty⟩
  · rw [setEntry_get] at he
    split_ifs at he with hid
    · obtain rfl := Option.some.inj he
      obtain ⟨h1, h2, h3, h4⟩ := h.entry id d hd
      rw [hid]
      exact ⟨by rw [htx, h1], by rw [htx]; exact h2, by rw [hsize, htx, h3], by rw [hfee, htx, h4]⟩
    · exact h.entry id' e he
  · rw [setEntry_get]
    refine (h.mem_imageSet k id').trans ?_
    split_ifs with hid
    · rw [hid, hd]
      simp only [Option.some.injEq, exists_eq_left', htx]
    · exact Iff.rfl

namespace Sourced

theorem pool (h : Sourced E cps B T n) {id : Hash} {d : TxDetails}
    (hd : n.txs.pool.transactions.get id = some d) : d.tx.toTransactionPrefix ∈ T := by
  obtain ⟨F, chain, -, hknown⟩ := h.known
  exact hknown id d.tx (known_of_pool hd)

theorem setPool (h : Sourced E cps B T n) (hl : Lined E cps B n')
    (hrep : ∀ F chain, Rep E F chain n.toChainStores → Rep E F chain n'.toChainStores)
    (hc : n'.checkpoints = n.checkpoints)
    (hpool : ∀ id d, n'.txs.pool.transactions.get id = some d → d.tx.toTransactionPrefix ∈ T) :
    Sourced E cps B T n' := by
  obtain ⟨F, chain, ⟨hcp, hv, hr⟩, hknown⟩ := h.known
  refine ⟨hl, F, chain, ⟨hc.trans hcp, hv, hrep F chain hr⟩, fun id tx hk => ?_⟩
  unfold Known knownIn at hk
  cases hg : n'.txs.pool.transactions.get id with
  | some d =>
    rw [hg] at hk
    exact Option.some.inj hk ▸ hpool id d hg
  | none =>
    rw [hg] at hk
    obtain ⟨te, hfind, rfl⟩ := Option.map_eq_some_iff.mp hk
    have hprop := List.find?_some hfind
    simp only [Bool.and_eq_true, Bool.not_eq_true'] at hprop
    exact hknown te.id te.tx (hr.known (List.mem_of_find?_eq_some hfind) hprop.2)

end Sourced

theorem Remembers.look (hG : EntryInvariant E cps B T C G) (h : Remembers E cps B T G n) {now : ℕ}
    (hnow : now ∈ C) (id : Hash) : Remembers E cps B T G (lookAt E now n id) := by
  unfold lookAt
  cases hd : n.txs.pool.transactions.get id with
  | none => exact h
  | some d =>
    obtain ⟨htx, hsize, hfee⟩ := isTransactionReadyToGo_same E now n d
    have hset : ∀ id' e, (setEntry n.txs.pool id (isTransactionReadyToGo E now n d).2).transactions.get
        id' = some e → n.txs.pool.transactions.get id' = some e ∨
          e = (isTransactionReadyToGo E now n d).2 := by
      intro id' e he
      rw [setEntry_get] at he
      split_ifs at he
      · exact Or.inr (Option.some.inj he).symm
      · exact Or.inl he
    have hrep : ∀ F chain, Rep E F chain n.toChainStores → Rep E F chain { n.toChainStores with
        txs := { n.txs with
          pool := setEntry n.txs.pool id (isTransactionReadyToGo E now n d).2 } } := by
      intro F chain hr
      refine hr.setPool (poolOK_setEntry hr.txs.pool hd htx hsize hfee) fun te hte hc => ?_
      have hnone := hr.txs.disjoint te hte hc
      rw [setEntry_get, if_neg]
      · exact hnone
      · rintro rfl
        rw [hd] at hnone
        cases hnone
    refine ⟨h.sourced.setPool ⟨?_, h.sourced.lined.line, h.sourced.lined.alts⟩ hrep rfl
      fun id' e he => ?_, fun id' e he => ?_⟩
    · obtain ⟨F, chain, hcp, hv, hr⟩ := h.sourced.lined.inv
      exact ⟨F, chain, hcp, hv, hrep F chain hr⟩
    · rcases hset id' e he with he | rfl
      · exact h.sourced.pool he
      · rw [htx]
        exact h.sourced.pool hd
    · rcases hset id' e he with he | rfl
      · exact h.pool id' e he
      · exact hG.checked n now d h.sourced hnow (h.pool id d hd)

theorem handleIncomingTx_entries {now : ℕ} {tx : Transaction} {kept : Bool} {id : Hash} {d : TxDetails}
    (h : (handleIncomingTx E now n tx kept).2.2.txs.pool.transactions.get id = some d) :
    n.txs.pool.transactions.get id = some d ∨ ∃ fee, d = entryFor now tx fee kept
      (((n.view E now).checkTxInputs n.txs.index tx).getD (0, nullHash)) := by
  unfold handleIncomingTx addNewTx at h
  split_ifs at h
  · exact Or.inl h
  · exact Or.inl h
  · exact addTx_entries h
  · exact Or.inl h

theorem Remembers.event (hG : EntryInvariant E cps B T C G) (hinj : Set.InjOn (getBlockHash E) B)
    (h : Remembers E cps B T G n) {e : PoolEvent} (hq : e.Within B T C)
    (he : e.apply E n = some n') : Remembers E cps B T G n' := by
  cases e with
  | look now id =>
    obtain rfl := Option.some.inj he
    exact h.look hG hq id
  | node e =>
    have hl : Lined E cps B n' :=
      h.sourced.lined.event hinj (by rintro now fuel b rfl; exact hq) he
    cases e with
    | block now fuel b =>
      obtain ⟨r, hr, rfl⟩ := Option.map_eq_some_iff.mp he
      exact (remembers_alt hG now hinj).addNewBlock h (fun _ => hq) (fun _ => hq) hr
    | transaction now tx kept =>
      obtain rfl := Option.some.inj he
      obtain ⟨F, chain, ⟨-, -, hrep⟩, -⟩ := h.sourced.known
      obtain ⟨-, hf, hpool⟩ := handleIncomingTx_spec now tx kept hrep
      refine ⟨h.sourced.setPool hl (fun F chain hr => (handleIncomingTx_spec now tx kept hr).1)
        hf.checkpoints fun id d hd => ?_, fun id d hd => ?_⟩
      · rcases hpool id d hd with hd | hd
        · exact h.sourced.pool hd
        · exact hd ▸ hq
      · rcases handleIncomingTx_entries hd with hd | ⟨fee, rfl⟩
        · exact h.pool id d hd
        · exact hG.admits n now n.isInCheckpointZone h.sourced _ tx fee kept (FindsBelow.refl _ _)
    | removeStuck now order =>
      obtain rfl := Option.some.inj he
      obtain ⟨F, chain, ⟨-, -, hrep⟩, -⟩ := h.sourced.known
      have hsub := (removeStuckTransactions_spec now order hrep.txs.pool).2
      exact ⟨h.sourced.setPool hl (fun F chain hr => removeStuck_rep now order hr) rfl
        fun id d hd => h.sourced.pool (hsub id d hd), fun id d hd => h.pool id d (hsub id d hd)⟩
    | pruneAltBlocks =>
      obtain rfl := Option.some.inj he
      exact h.frame hl rfl rfl

theorem remembers_of_init (hgen : generateGenesisBlock ∈ B) {now : ℕ} {n₀ : Node}
    (hinit : initNode E now cps = some n₀) : Remembers E cps B T G n₀ := by
  obtain ⟨c, -, hc, hcp, hrep, -, hknown⟩ := initNode_spec hinit
  refine ⟨⟨(lined_of_init hgen hinit).1, _, [c], ⟨hcp, ⟨now, .genesis hc⟩, hrep⟩, fun id tx hk => ?_⟩,
    fun id d hd => ?_⟩
  · rw [hknown] at hk
    cases hk
  · have hk : Known E [c] n₀.toChainStores id = some d.tx := known_of_pool hd
    rw [hknown] at hk
    cases hk

theorem remembers_of_run (hG : EntryInvariant E cps B T C G) (hinj : Set.InjOn (getBlockHash E) B)
    {events : List PoolEvent} (hq : ∀ e ∈ events, e.Within B T C) (hn : Remembers E cps B T G n)
    (hrun : poolRun E n events = some n') : Remembers E cps B T G n' := by
  induction events generalizing n with
  | nil =>
    obtain rfl := Option.some.inj hrun
    exact hn
  | cons e l ih =>
    unfold poolRun at hrun
    cases he : e.apply E n with
    | none =>
      rw [he] at hrun
      cases hrun
    | some m =>
      rw [he] at hrun
      exact ih (fun e' he' => hq e' (List.mem_cons_of_mem _ he'))
        (hn.event hG hinj (hq e List.mem_cons_self) he) hrun

end Events

theorem distinct_of_nodup {E : Env} {bs : List Block} {ps : List TransactionPrefix}
    (hb : ((generateGenesisBlock :: bs).map (getBlockHash E)).Nodup)
    (ht : (((generateGenesisBlock :: bs).map (fun b => b.minerTx.toTransactionPrefix) ++ ps).map
      fun p => E.cnFastHash (writeTransactionPrefix p)).Nodup) :
    Distinct E {b | b ∈ generateGenesisBlock :: bs} {p | p ∈ ps} := by
  refine ⟨List.mem_cons_self, fun b hb₁ b' hb₂ => List.inj_on_of_nodup_map hb hb₁ hb₂,
    fun p hp p' hp' => List.inj_on_of_nodup_map ht ?_ ?_⟩
  · rcases hp with ⟨b, hb, rfl⟩ | hp
    · exact List.mem_append_left _ (List.mem_map_of_mem hb)
    · exact List.mem_append_right _ hp
  · rcases hp' with ⟨b, hb, rfl⟩ | hp'
    · exact List.mem_append_left _ (List.mem_map_of_mem hb)
    · exact List.mem_append_right _ hp'

/-- The first `k` empty blocks on the genesis block. -/
def sampleBlocks (k : ℕ) : Option (List Block) :=
  (sampleNode ∅ k).map fun n => n.blocks.tail.map BlockExtendedInfo.bl

def blockEvents (bs : List Block) : List PoolEvent := bs.map fun b => .node (.block 0 1 b)

theorem blockEvents_within {B : Set Block} {T : Set TransactionPrefix} {C : Set ℕ} {bs : List Block}
    (h : ∀ b ∈ bs, b ∈ B) : ∀ e ∈ blockEvents bs, e.Within B T C := by
  intro e he
  obtain ⟨b, hb, rfl⟩ := List.mem_map.mp he
  exact h b hb

/-- Ten blocks, a transaction without signatures, and the blocks behind. -/
def unsignedRun (bs : List Block) : List PoolEvent :=
  blockEvents (bs.take 10) ++
    (.node (.transaction 0 (sampleSpend 1) false) :: blockEvents (bs.drop 10))

/-- One block, a signed transaction that a block kept, a look at it, and the blocks behind. -/
def lateRun (bs : List Block) : List PoolEvent :=
  blockEvents (bs.take 1) ++ (.node (.transaction 0 signedSpend true) ::
    .look 0 (getTransactionHash sampleEnv signedSpend) :: blockEvents (bs.drop 1))

theorem unsignedRun_within (bs : List Block) {C : Set ℕ} : ∀ e ∈ unsignedRun bs,
    e.Within {b | b ∈ generateGenesisBlock :: bs} {p | p ∈ [(sampleSpend 1).toTransactionPrefix]} C := by
  intro e he
  rcases List.mem_append.mp he with he | he
  · exact blockEvents_within (fun b hb => List.mem_cons_of_mem _ (List.mem_of_mem_take hb)) e he
  rcases List.mem_cons.mp he with rfl | he
  · exact List.mem_singleton_self _
  · exact blockEvents_within (fun b hb => List.mem_cons_of_mem _ (List.mem_of_mem_drop hb)) e he

theorem lateRun_within (bs : List Block) : ∀ e ∈ lateRun bs,
    e.Within {b | b ∈ generateGenesisBlock :: bs} {p | p ∈ [signedSpend.toTransactionPrefix]} {0} := by
  intro e he
  rcases List.mem_append.mp he with he | he
  · exact blockEvents_within (fun b hb => List.mem_cons_of_mem _ (List.mem_of_mem_take hb)) e he
  rcases List.mem_cons.mp he with rfl | he
  · exact List.mem_singleton_self _
  rcases List.mem_cons.mp he with rfl | he
  · exact Set.mem_singleton 0
  · exact blockEvents_within (fun b hb => List.mem_cons_of_mem _ (List.mem_of_mem_drop hb)) e he

/-- Ids of `bs` and of the transactions do not collide. -/
def sampleDistinct (bs : List Block) (ps : List TransactionPrefix) : Bool :=
  decide ((generateGenesisBlock :: bs).map (getBlockHash sampleEnv)).Nodup &&
    decide (((generateGenesisBlock :: bs).map (fun b => b.minerTx.toTransactionPrefix) ++ ps).map
      fun p => sampleEnv.cnFastHash (writeTransactionPrefix p)).Nodup

theorem distinct_sample {bs : List Block} {ps : List TransactionPrefix}
    (h : sampleDistinct bs ps = true) :
    Distinct sampleEnv {b | b ∈ generateGenesisBlock :: bs} {p | p ∈ ps} := by
  obtain ⟨hb, ht⟩ := Bool.and_eq_true_iff.mp h
  exact distinct_of_nodup (of_decide_eq_true hb) (of_decide_eq_true ht)

/-- An entry that is found ready passes the check, unless its pair is trusted and an output it names
is locked now or a signature that is looked at does not verify. -/
theorem ready_iff_spendable (E : Env) (cps : Checkpoints) (B : Set Block) (T : Set TransactionPrefix)
    (start now : ℕ) (n₀ n : Node) (events : List PoolEvent) (id : Hash) (d : TxDetails)
    (hd : Distinct E B T) (hinit : initNode E start cps = some n₀)
    (hq : ∀ e ∈ events, e.Within B T Set.univ) (hrun : poolRun E n₀ events = some n)
    (hget : n.txs.pool.transactions.get id = some d) :
    ((isTransactionReadyToGo E now n d).1 = none →
        ((n.view E now).checkTxInputs n.txs.index d.tx).isSome = true) ↔
      (Trusted E n d → n.txs.index.haveTxKeyimgesAsSpent d.tx = false → Spendable E now n d.tx) := by
  have hn := remembers_of_run usedOK_entries hd.blocks hq (remembers_of_init hd.genesis hinit) hrun
  obtain ⟨F, chain, hrep, hg⟩ := hn.sourced.grown
  exact ready_iff_of_used hd hrep hg (hn.pool id d hget)

/-- An unsigned transaction is ready, and passes, as long as the chain is in the zone. -/
theorem ready_iff_spendable_unsigned : ∃ n₀ n d events,
    initNode sampleEnv 0 sampleCheckpoints = some n₀ ∧ poolRun sampleEnv n₀ events = some n ∧
    (isTransactionReadyToGo sampleEnv 0 n d).1 = none ∧
    (((isTransactionReadyToGo sampleEnv 0 n d).1 = none →
        ((n.view sampleEnv 0).checkTxInputs n.txs.index d.tx).isSome = true) ↔
      (Trusted sampleEnv n d → n.txs.index.haveTxKeyimgesAsSpent d.tx = false →
        Spendable sampleEnv 0 n d.tx)) := by
  have hdec : (sampleBlocks 10).bind (fun bs => (initNode sampleEnv 0 sampleCheckpoints).bind fun n₀ =>
      (poolRun sampleEnv n₀ (unsignedRun bs)).bind fun n =>
      (n.txs.pool.transactions.get (getTransactionHash sampleEnv (sampleSpend 1))).map fun d =>
        decide ((isTransactionReadyToGo sampleEnv 0 n d).1 = none) &&
        sampleDistinct bs [(sampleSpend 1).toTransactionPrefix]) = some true := by decide +kernel
  obtain ⟨bs, -, h⟩ := Option.bind_eq_some_iff.mp hdec
  obtain ⟨n₀, hinit, h⟩ := Option.bind_eq_some_iff.mp h
  obtain ⟨n, hrun, h⟩ := Option.bind_eq_some_iff.mp h
  obtain ⟨d, hget, h⟩ := Option.map_eq_some_iff.mp h
  obtain ⟨hready, hdist⟩ := Bool.and_eq_true_iff.mp h
  exact ⟨n₀, n, d, _, hinit, hrun, of_decide_eq_true hready,
    ready_iff_spendable sampleEnv sampleCheckpoints _ _ 0 0 n₀ n _ _ d (distinct_sample hdist) hinit
      (unsignedRun_within bs) hrun hget⟩

/-- Once the chain has left the zone it is still found ready, without signatures. -/
theorem ready_unsigned_out_of_zone : ¬∀ (E : Env) (cps : Checkpoints) (B : Set Block)
    (T : Set TransactionPrefix) (start now : ℕ) (n₀ n : Node) (events : List PoolEvent) (id : Hash)
    (d : TxDetails), Distinct E B T → initNode E start cps = some n₀ →
    (∀ e ∈ events, e.Within B T {now}) → poolRun E n₀ events = some n →
    n.txs.pool.transactions.get id = some d → (isTransactionReadyToGo E now n d).1 = none →
    ((n.view E now).checkTxInputs n.txs.index d.tx).isSome = true := by
  intro hall
  -- the checkpoint is the block at height 11
  have hdec : (sampleBlocks 12).bind (fun bs => (bs[10]?).bind fun b =>
      (initNode sampleEnv 0 ((∅ : Checkpoints).set 11 (getBlockHash sampleEnv b))).bind fun n₀ =>
      (poolRun sampleEnv n₀ (unsignedRun bs)).bind fun n =>
      (n.txs.pool.transactions.get (getTransactionHash sampleEnv (sampleSpend 1))).map fun d =>
        decide ((isTransactionReadyToGo sampleEnv 0 n d).1 = none) &&
        ((n.view sampleEnv 0).checkTxInputs n.txs.index d.tx).isNone &&
        sampleDistinct bs [(sampleSpend 1).toTransactionPrefix]) = some true := by decide +kernel
  obtain ⟨bs, -, h⟩ := Option.bind_eq_some_iff.mp hdec
  obtain ⟨b, -, h⟩ := Option.bind_eq_some_iff.mp h
  obtain ⟨n₀, hinit, h⟩ := Option.bind_eq_some_iff.mp h
  obtain ⟨n, hrun, h⟩ := Option.bind_eq_some_iff.mp h
  obtain ⟨d, hget, h⟩ := Option.map_eq_some_iff.mp h
  obtain ⟨h, hdist⟩ := Bool.and_eq_true_iff.mp h
  obtain ⟨hready, hnone⟩ := Bool.and_eq_true_iff.mp h
  have hsome := hall sampleEnv _ _ _ 0 0 n₀ n _ _ d (distinct_sample hdist) hinit
    (unsignedRun_within bs) hrun hget (of_decide_eq_true hready)
  rw [Option.isNone_iff_eq_none.mp hnone] at hsome
  cases hsome

/-- With the clock fixed, an entry that is declined does not pass the check, if its pair names no block
above the chain and the failure that decides, if one does, is that of the top block outside the zone. -/
theorem check_fails_of_declined (E : Env) (cps : Checkpoints) (B : Set Block)
    (T : Set TransactionPrefix) (start now : ℕ) (n₀ n : Node) (events : List PoolEvent) (id : Hash)
    (d : TxDetails) (hd : Distinct E B T) (hinit : initNode E start cps = some n₀)
    (hq : ∀ e ∈ events, e.Within B T {now}) (hrun : poolRun E n₀ events = some n)
    (hget : n.txs.pool.transactions.get id = some d) (habove : ¬CachedAbove n d)
    (hcounts : FailureCounts E n d → d.lastFailedId ≠ nullHash ∧
      d.lastFailedHeight + 1 = n.blocks.length ∧ n.isInCheckpointZone = false)
    (hdeclined : (isTransactionReadyToGo E now n d).1 ≠ none) :
    (n.view E now).checkTxInputs n.txs.index d.tx = none := by
  have hn := remembers_of_run (failedOK_entries now) hd.blocks hq
    (remembers_of_init hd.genesis hinit) hrun
  obtain ⟨F, chain, hrep, hg⟩ := hn.sourced.grown
  rcases check_of_declined hdeclined with h | h | h
  · exact absurd h habove
  · obtain ⟨hne, htop, hflag⟩ := hcounts h
    exact check_none_of_failed hd hrep hg (hn.pool id d hget) hne h.onChain.symm htop hflag
  · exact h

/-- A transaction that spends an output which is still locked, looked at a second time. -/
theorem check_fails_of_declined_locked : ∃ n₀ n d events, initNode sampleEnv 0 ∅ = some n₀ ∧
    poolRun sampleEnv n₀ events = some n ∧ (isTransactionReadyToGo sampleEnv 0 n d).1 ≠ none ∧
    (n.view sampleEnv 0).checkTxInputs n.txs.index d.tx = none := by
  have hdec : (sampleBlocks 1).bind (fun bs => (initNode sampleEnv 0 ∅).bind fun n₀ =>
      (poolRun sampleEnv n₀ (lateRun bs)).bind fun n =>
      (n.txs.pool.transactions.get (getTransactionHash sampleEnv signedSpend)).map fun d =>
        decide ((isTransactionReadyToGo sampleEnv 0 n d).1 ≠ none) &&
        decide (d.maxUsedBlockId = nullHash) &&
        decide (d.lastFailedId ≠ nullHash ∧ d.lastFailedHeight + 1 = n.blocks.length ∧
          n.isInCheckpointZone = false) &&
        sampleDistinct bs [signedSpend.toTransactionPrefix]) = some true := by decide +kernel
  obtain ⟨bs, -, h⟩ := Option.bind_eq_some_iff.mp hdec
  obtain ⟨n₀, hinit, h⟩ := Option.bind_eq_some_iff.mp h
  obtain ⟨n, hrun, h⟩ := Option.bind_eq_some_iff.mp h
  obtain ⟨d, hget, h⟩ := Option.map_eq_some_iff.mp h
  obtain ⟨h, hdist⟩ := Bool.and_eq_true_iff.mp h
  obtain ⟨h, hfailed⟩ := Bool.and_eq_true_iff.mp h
  obtain ⟨hdeclined, hnull⟩ := Bool.and_eq_true_iff.mp h
  exact ⟨n₀, n, d, _, hinit, hrun, of_decide_eq_true hdeclined,
    check_fails_of_declined sampleEnv ∅ _ _ 0 0 n₀ n _ _ d (distinct_sample hdist) hinit
      (lateRun_within bs) hrun hget (fun h => h.checked (of_decide_eq_true hnull))
      (fun _ => of_decide_eq_true hfailed) (of_decide_eq_true hdeclined)⟩

/-- Nine blocks later the output is unlocked and the transaction is still declined. -/
theorem declined_after_old_failure : ¬∀ (E : Env) (cps : Checkpoints) (B : Set Block)
    (T : Set TransactionPrefix) (start now : ℕ) (n₀ n : Node) (events : List PoolEvent) (id : Hash)
    (d : TxDetails), Distinct E B T → initNode E start cps = some n₀ →
    (∀ e ∈ events, e.Within B T {now}) → poolRun E n₀ events = some n →
    n.txs.pool.transactions.get id = some d → (isTransactionReadyToGo E now n d).1 ≠ none →
    (n.view E now).checkTxInputs n.txs.index d.tx = none := by
  intro hall
  have hdec : (sampleBlocks 10).bind (fun bs => (initNode sampleEnv 0 ∅).bind fun n₀ =>
      (poolRun sampleEnv n₀ (lateRun bs)).bind fun n =>
      (n.txs.pool.transactions.get (getTransactionHash sampleEnv signedSpend)).map fun d =>
        decide ((isTransactionReadyToGo sampleEnv 0 n d).1 ≠ none) &&
        ((n.view sampleEnv 0).checkTxInputs n.txs.index d.tx).isSome &&
        sampleDistinct bs [signedSpend.toTransactionPrefix]) = some true := by decide +kernel
  obtain ⟨bs, -, h⟩ := Option.bind_eq_some_iff.mp hdec
  obtain ⟨n₀, hinit, h⟩ := Option.bind_eq_some_iff.mp h
  obtain ⟨n, hrun, h⟩ := Option.bind_eq_some_iff.mp h
  obtain ⟨d, hget, h⟩ := Option.map_eq_some_iff.mp h
  obtain ⟨h, hdist⟩ := Bool.and_eq_true_iff.mp h
  obtain ⟨hdeclined, hsome⟩ := Bool.and_eq_true_iff.mp h
  rw [hall sampleEnv ∅ _ _ 0 0 n₀ n _ _ d (distinct_sample hdist) hinit (lateRun_within bs) hrun hget
    (of_decide_eq_true hdeclined)] at hsome
  cases hsome

end Boolberry
