import Boolberry.Lib.FiniteMap
import Boolberry.FormatUtils

/-!
# The transaction pool

`tx_pool.cpp`, without the block template and the state file. Whatever asks the
chain takes the chain's answer as an argument: `check` is
`check_tx_inputs(tx, max_used_block_height, max_used_block_id)`.
-/

namespace Boolberry
open KeyValue

structure TxDetails where
  tx : Transaction
  blobSize : ℕ
  fee : UInt64
  maxUsedBlockId : Hash
  maxUsedBlockHeight : ℕ
  keptByBlock : Bool
  lastFailedHeight : ℕ
  lastFailedId : Hash
  receiveTime : ℕ
deriving DecidableEq, Repr

structure TxMemoryPool where
  transactions : Map Hash TxDetails
  spentKeyImages : Map KeyImage (Finset Hash)

namespace TxMemoryPool

def empty : TxMemoryPool := ⟨∅, ∅⟩

def haveTx (p : TxMemoryPool) (id : Hash) : Bool := (p.transactions.get id).isSome

/-- `have_tx_keyimges_as_spent`; an input of another kind makes it answer `true`. -/
def haveTxKeyimgesAsSpent (p : TxMemoryPool) (tx : Transaction) : Bool :=
  tx.vin.any fun i => match i with
    | .toKey txin => (p.spentKeyImages.get txin.kImage).isSome
    | _ => true

/-- The loop of `add_tx` that enters the key images; the record is created before it is checked. -/
def insertKeyImages (id : Hash) (keptByBlock : Bool) :
    List Txin → Map KeyImage (Finset Hash) → Bool × Map KeyImage (Finset Hash)
  | [], m => (true, m)
  | .toKey txin :: l, m =>
      let keiImageSet := (m.get txin.kImage).getD ∅
      if !keptByBlock && keiImageSet.card != 0 then (false, m.set txin.kImage keiImageSet)
      else if id ∈ keiImageSet then (false, m.set txin.kImage keiImageSet)
      else insertKeyImages id keptByBlock l (m.set txin.kImage (insert id keiImageSet))
  | _ :: _, m => (false, m)

/-- The part of `add_tx` behind its checks: the entry, then its key images.
`added` is what the branch for this entry notes in the context. -/
def insertTx (p : TxMemoryPool) (id : Hash) (d : TxDetails) (tvc added : TxVerificationContext) :
    Bool × TxVerificationContext × TxMemoryPool :=
  if p.haveTx id then (false, tvc, p)
  else
    let r := insertKeyImages id d.keptByBlock d.tx.vin p.spentKeyImages
    (r.1, { added with addedToPool := true, verifivationFailed := !r.1 },
      ⟨p.transactions.set id d, r.2⟩)

/-- The entry `add_tx` makes; `maxUsed` is `(0, null_hash)` when the inputs could not be checked. -/
def entryFor (now : ℕ) (tx : Transaction) (fee : UInt64) (keptByBlock : Bool)
    (maxUsed : ℕ × Hash) : TxDetails where
  tx := tx
  blobSize := getObjectBlobsize tx
  fee := fee
  maxUsedBlockId := maxUsed.2
  maxUsedBlockHeight := maxUsed.1
  keptByBlock := keptByBlock
  lastFailedHeight := 0
  lastFailedId := nullHash
  receiveTime := now

/-- `add_tx(tx, id, tvc, kept_by_block)`. -/
def addTx (now : ℕ) (check : Transaction → Option (ℕ × Hash)) (p : TxMemoryPool)
    (tx : Transaction) (id : Hash) (tvc : TxVerificationContext) (keptByBlock : Bool) :
    Bool × TxVerificationContext × TxMemoryPool :=
  let refused := (false, { tvc with verifivationFailed := true }, p)
  if !keptByBlock && decide (CURRENCY_MAX_TRANSACTION_BLOB_SIZE < getObjectBlobsize tx) then refused
  else if !checkInputsTypesSupported tx then refused
  else
    match getInputsMoneyAmount tx with
    | none => refused
    | some inputsAmount =>
        let outputsAmount := getOutsMoneyAmount tx
        if inputsAmount ≤ outputsAmount then refused
        else if !keptByBlock && p.haveTxKeyimgesAsSpent tx then refused
        else if !keptByBlock && decide (inputsAmount - outputsAmount < TX_POOL_MINIMUM_FEE) then
          refused
        else
          let fee := inputsAmount - outputsAmount
          match check tx with
          | none =>
              if keptByBlock then
                insertTx p id (entryFor now tx fee keptByBlock (0, nullHash)) tvc
                  { tvc with verifivationImpossible := true }
              else refused
          | some maxUsed =>
              insertTx p id (entryFor now tx fee keptByBlock maxUsed) tvc
                { tvc with shouldBeRelayed := tvc.shouldBeRelayed || decide (0 < fee) }

/-- `remove_transaction_keyimages`; `id` is the hash of the transaction. -/
def removeTransactionKeyimages (id : Hash) :
    List Txin → Map KeyImage (Finset Hash) → Bool × Map KeyImage (Finset Hash)
  | [], m => (true, m)
  | .toKey txin :: l, m =>
      match m.get txin.kImage with
      | none => (false, m)
      | some keyImageSet =>
          if id ∉ keyImageSet then (false, m)
          else
            let rest := keyImageSet.erase id
            removeTransactionKeyimages id l
              (if rest = ∅ then m.erase txin.kImage else m.set txin.kImage rest)
  | _ :: _, m => (false, m)

/-- Take an entry out with its key images; the answer of `remove_transaction_keyimages` is not read. -/
def eraseTx (E : Env) (p : TxMemoryPool) (id : Hash) (d : TxDetails) : TxMemoryPool :=
  ⟨p.transactions.erase id,
    (removeTransactionKeyimages (getTransactionHash E d.tx) d.tx.vin p.spentKeyImages).2⟩

/-- `take_tx`: the transaction, its blob size, its fee and the pool without it. -/
def takeTx (E : Env) (p : TxMemoryPool) (id : Hash) : Option (TxDetails × TxMemoryPool) :=
  match p.transactions.get id with
  | none => none
  | some d => some (d, eraseTx E p id d)

/-- The age test of `remove_stuck_transactions`, in 64 bits. -/
def isStuck (now : ℕ) (d : TxDetails) : Bool :=
  let txAge := (now + 2 ^ 64 - d.receiveTime) % 2 ^ 64
  decide (CURRENCY_MEMPOOL_TX_LIVETIME < txAge) && !d.keptByBlock ||
    decide (CURRENCY_MEMPOOL_TX_FROM_ALT_BLOCK_LIVETIME < txAge) && d.keptByBlock

/-- `remove_stuck_transactions`, visiting the entries in the order of the hash table. -/
def removeStuckTransactions (E : Env) (now : ℕ) (order : List Hash) (p : TxMemoryPool) :
    TxMemoryPool :=
  order.foldl (fun p id => match p.transactions.get id with
    | none => p
    | some d => if isStuck now d then eraseTx E p id d else p) p

end TxMemoryPool

def checkTxInputsKeyimagesDiff (tx : Transaction) : Bool :=
  checkInputsTypesSupported tx && decide (keyImages tx).Nodup

/-- `core::check_tx_semantic`; `limit` is the current cumulative block size limit. -/
def checkTxSemantic (E : Env) (limit : ℕ) (tx : Transaction) (keepedByBlock : Bool) : Bool :=
  if tx.vin.isEmpty then false
  else if !checkInputsTypesSupported tx then false
  else if !checkOutsValid E tx then false
  else if !checkMoneyOverflow tx then false
  else if (getInputsMoneyAmount tx).getD 0 ≤ getOutsMoneyAmount tx then false
  else if !keepedByBlock && decide
      ((limit + 2 ^ 64 - CURRENCY_COINBASE_BLOB_RESERVED_SIZE) % 2 ^ 64 ≤ getObjectBlobsize tx) then
    false
  else if !checkTxInputsKeyimagesDiff tx then false
  else (parseAndValidateTxExtra E tx).isSome

/-- What `check_tx_semantic` makes sure of, whatever the block size limit was. -/
structure Semantic (E : Env) (tx : Transaction) : Prop where
  vin_ne_nil : tx.vin ≠ []
  types : checkInputsTypesSupported tx = true
  outs : checkOutsValid E tx = true
  overflow : checkMoneyOverflow tx = true
  amounts : getOutsMoneyAmount tx < (getInputsMoneyAmount tx).getD 0
  nodup : (keyImages tx).Nodup
  extra : (parseAndValidateTxExtra E tx).isSome = true

theorem semantic_of_checkTxSemantic {E : Env} {limit : ℕ} {tx : Transaction} {kept : Bool}
    (h : checkTxSemantic E limit tx kept = true) : Semantic E tx := by
  unfold checkTxSemantic at h
  split_ifs at h with h1 h2 h3 h4 h5 h6 h7
  have hdiff : checkTxInputsKeyimagesDiff tx = true := by simpa using h7
  have hnodup : (keyImages tx).Nodup := by
    have := (Bool.and_eq_true _ _ ▸ hdiff).2
    simpa using this
  exact ⟨by simpa using h1, by simpa using h2, by simpa using h3, by simpa using h4,
    UInt64.not_le.mp h5, hnodup, h⟩

theorem eq_map_of_all_toKey : ∀ vin : List Txin, (vin.all fun i => i.toKey?.isSome) = true →
    vin = (vin.filterMap Txin.toKey?).map Txin.toKey
  | [], _ => rfl
  | .toKey inp :: l, h => by
    have hl := eq_map_of_all_toKey l (by simpa [Txin.toKey?] using h)
    simpa [Txin.toKey?] using hl
  | .gen _ :: _, h => by simp [Txin.toKey?] at h
  | .toScript .. :: _, h => by simp [Txin.toKey?] at h
  | .toScripthash .. :: _, h => by simp [Txin.toKey?] at h

theorem Semantic.vin_eq {E : Env} {tx : Transaction} (h : Semantic E tx) :
    tx.vin = (toKeyInputs tx).map Txin.toKey :=
  eq_map_of_all_toKey tx.vin h.types

namespace TxMemoryPool

/-- The ids recorded for a key image. -/
def imageSet (m : Map KeyImage (Finset Hash)) (k : KeyImage) : Finset Hash := (m.get k).getD ∅

/-- What an entry says about its transaction. -/
structure EntryOK (E : Env) (id : Hash) (d : TxDetails) : Prop where
  hash : getTransactionHash E d.tx = id
  semantic : Semantic E d.tx
  blobSize : d.blobSize = getObjectBlobsize d.tx
  fee : d.fee = (getInputsMoneyAmount d.tx).getD 0 - getOutsMoneyAmount d.tx

/-- Every entry is stored under its hash, and `spentKeyImages` lists for each key image the
entries that spend it, with no empty record. -/
structure PoolOK (E : Env) (p : TxMemoryPool) : Prop where
  entry : ∀ id d, p.transactions.get id = some d → EntryOK E id d
  mem_imageSet : ∀ k id, id ∈ imageSet p.spentKeyImages k ↔
    ∃ d, p.transactions.get id = some d ∧ k ∈ keyImages d.tx
  nonempty : ∀ k, p.spentKeyImages.get k ≠ some ∅

theorem poolOK_empty (E : Env) : PoolOK E empty :=
  ⟨fun _ _ h => by simp [empty] at h, fun _ _ => by simp [imageSet, empty], fun _ => by simp [empty]⟩

theorem imageSet_set (m : Map KeyImage (Finset Hash)) (k k' : KeyImage) (s : Finset Hash) :
    imageSet (m.set k s) k' = if k' = k then s else imageSet m k' := by
  unfold imageSet
  rw [Map.get_set]
  split_ifs <;> rfl

theorem imageSet_erase (m : Map KeyImage (Finset Hash)) (k k' : KeyImage) :
    imageSet (m.erase k) k' = if k' = k then ∅ else imageSet m k' := by
  unfold imageSet
  rw [Map.get_erase]
  split_ifs <;> rfl

theorem insertKeyImages_spec (id : Hash) (kept : Bool) (ins : List TxinToKey)
    (m : Map KeyImage (Finset Hash)) (hnd : (ins.map TxinToKey.kImage).Nodup)
    (hid : ∀ i ∈ ins, id ∉ imageSet m i.kImage)
    (hkept : kept = true ∨ ∀ i ∈ ins, imageSet m i.kImage = ∅) (hne : ∀ k, m.get k ≠ some ∅) :
    ∃ m', insertKeyImages id kept (ins.map Txin.toKey) m = (true, m') ∧
      (∀ k, imageSet m' k =
        if k ∈ ins.map TxinToKey.kImage then insert id (imageSet m k) else imageSet m k) ∧
      ∀ k, m'.get k ≠ some ∅ := by
  induction ins generalizing m with
  | nil => exact ⟨m, rfl, by simp, hne⟩
  | cons i l ih =>
    rw [List.map_cons, List.nodup_cons] at hnd
    have hnotin : ∀ j ∈ l, j.kImage ≠ i.kImage := fun j hj he =>
      hnd.1 (he ▸ List.mem_map_of_mem hj)
    have hcard : (!kept && (imageSet m i.kImage).card != 0) = false := by
      rcases hkept with hk | hk
      · simp [hk]
      · simp [hk i (by simp)]
    have hset : ∀ j ∈ l, imageSet (m.set i.kImage (insert id (imageSet m i.kImage))) j.kImage =
        imageSet m j.kImage := fun j hj => by rw [imageSet_set, if_neg (hnotin j hj)]
    obtain ⟨m', hm', him, hne'⟩ := ih (m.set i.kImage (insert id (imageSet m i.kImage))) hnd.2
      (fun j hj => by rw [hset j hj]; exact hid j (by simp [hj]))
      (hkept.imp_right fun hk j hj => by rw [hset j hj]; exact hk j (by simp [hj]))
      (fun k => by
        rw [Map.get_set]
        split_ifs
        · simp
        · exact hne k)
    refine ⟨m', ?_, fun k => ?_, hne'⟩
    · simp only [List.map_cons, insertKeyImages]
      change (if (!kept && (imageSet m i.kImage).card != 0) = true then _
        else if id ∈ imageSet m i.kImage then _ else _) = _
      rw [hcard, if_neg Bool.false_ne_true, if_neg (hid i (by simp))]
      exact hm'
    · rw [him, imageSet_set]
      by_cases hk : k = i.kImage
      · subst hk
        simp [hnd.1]
      · simp [hk]

theorem removeTransactionKeyimages_spec (id : Hash) (ins : List TxinToKey)
    (m : Map KeyImage (Finset Hash)) (hnd : (ins.map TxinToKey.kImage).Nodup)
    (hid : ∀ i ∈ ins, id ∈ imageSet m i.kImage) (hne : ∀ k, m.get k ≠ some ∅) :
    ∃ m', removeTransactionKeyimages id (ins.map Txin.toKey) m = (true, m') ∧
      (∀ k, imageSet m' k =
        if k ∈ ins.map TxinToKey.kImage then (imageSet m k).erase id else imageSet m k) ∧
      ∀ k, m'.get k ≠ some ∅ := by
  induction ins generalizing m with
  | nil => exact ⟨m, rfl, by simp, hne⟩
  | cons i l ih =>
    rw [List.map_cons, List.nodup_cons] at hnd
    have hnotin : ∀ j ∈ l, j.kImage ≠ i.kImage := fun j hj he =>
      hnd.1 (he ▸ List.mem_map_of_mem hj)
    have hi := hid i (by simp)
    obtain ⟨s, hs⟩ : ∃ s, m.get i.kImage = some s := by
      cases hg : m.get i.kImage with
      | none => simp [imageSet, hg] at hi
      | some s => exact ⟨s, rfl⟩
    have hsi : imageSet m i.kImage = s := by simp [imageSet, hs]
    let m₁ := if s.erase id = ∅ then m.erase i.kImage else m.set i.kImage (s.erase id)
    have hm₁ : ∀ k, imageSet m₁ k = if k = i.kImage then s.erase id else imageSet m k := by
      intro k
      by_cases he : s.erase id = ∅
      · simp only [m₁, he, if_true, imageSet_erase]
      · simp only [m₁, he, if_false, imageSet_set]
    have hne₁ : ∀ k, m₁.get k ≠ some ∅ := by
      intro k
      by_cases he : s.erase id = ∅
      · simp only [m₁, he, if_true, Map.get_erase]
        split_ifs
        · simp
        · exact hne k
      · simp only [m₁, he, if_false, Map.get_set]
        split_ifs
        · simpa using he
        · exact hne k
    obtain ⟨m', hm', him, hne'⟩ := ih m₁ hnd.2
      (fun j hj => by rw [hm₁, if_neg (hnotin j hj)]; exact hid j (by simp [hj])) hne₁
    refine ⟨m', ?_, fun k => ?_, hne'⟩
    · rw [hsi] at hi
      simp only [List.map_cons, removeTransactionKeyimages, hs, hi, not_true_eq_false, if_false]
      exact hm'
    · rw [him, hm₁]
      by_cases hk : k = i.kImage
      · subst hk
        simp [hnd.1, hsi]
      · simp [hk]

/-- An entry under a new id, spending key images no other entry spends unless it is kept by a
block, goes in and keeps the invariant. -/
theorem insertTx_spec {E : Env} {p : TxMemoryPool} {id : Hash} {d : TxDetails}
    (tvc added : TxVerificationContext) (hp : PoolOK E p) (hd : EntryOK E id d)
    (hnew : p.transactions.get id = none)
    (hkept : d.keptByBlock = true ∨ ∀ k ∈ keyImages d.tx, p.spentKeyImages.get k = none) :
    ∃ tvc' p', insertTx p id d tvc added = (true, tvc', p') ∧
      p'.transactions = p.transactions.set id d ∧ PoolOK E p' := by
  have hvin := hd.semantic.vin_eq
  obtain ⟨m', hm', him, hne⟩ := insertKeyImages_spec id d.keptByBlock (toKeyInputs d.tx)
    p.spentKeyImages hd.semantic.nodup
    (fun i _ hmem => by
      obtain ⟨d', hd', _⟩ := (hp.mem_imageSet _ _).mp hmem
      rw [hnew] at hd'
      simp at hd')
    (hkept.imp_right fun hk i hi => by
      have := hk i.kImage (List.mem_map_of_mem hi)
      simp [imageSet, this]) hp.nonempty
  refine ⟨{ added with addedToPool := true, verifivationFailed := false },
    ⟨p.transactions.set id d, m'⟩, ?_, rfl, ?_⟩
  · simp only [insertTx, haveTx, hnew, Option.isSome_none, Bool.false_eq_true, if_false]
    rw [hvin, hm']
    rfl
  refine ⟨fun id' d' h => ?_, fun k id' => ?_, hne⟩
  · simp only [Map.get_set] at h
    split_ifs at h with heq
    · obtain rfl := Option.some.inj h
      exact heq ▸ hd
    · exact hp.entry id' d' h
  · rw [him]
    change _ ↔ ∃ d', (p.transactions.set id d).get id' = some d' ∧ _
    rw [Map.get_set]
    by_cases heq : id' = id
    · subst heq
      have hold : id' ∉ imageSet p.spentKeyImages k := fun hmem => by
        obtain ⟨d', hd', _⟩ := (hp.mem_imageSet _ _).mp hmem
        rw [hnew] at hd'
        simp at hd'
      change _ ∈ (if k ∈ keyImages d.tx then _ else _) ↔ _
      by_cases hk : k ∈ keyImages d.tx <;> simp [hk, hold]
    · rw [if_neg heq, ← hp.mem_imageSet]
      change _ ∈ (if k ∈ keyImages d.tx then _ else _) ↔ _
      by_cases hk : k ∈ keyImages d.tx <;> simp [hk, heq]

/-- A block's transaction always fits back into a pool that does not hold it. -/
theorem addTx_kept {E : Env} {p : TxMemoryPool} {tx : Transaction} (now : ℕ)
    (check : Transaction → Option (ℕ × Hash)) (tvc : TxVerificationContext) (hp : PoolOK E p)
    (hs : Semantic E tx) (hnew : p.transactions.get (getTransactionHash E tx) = none) :
    ∃ tvc' p' d, addTx now check p tx (getTransactionHash E tx) tvc true = (true, tvc', p') ∧
      p'.transactions = p.transactions.set (getTransactionHash E tx) d ∧ d.tx = tx ∧
      d.keptByBlock = true ∧ PoolOK E p' := by
  obtain ⟨amountIn, hin, hlt⟩ : ∃ a, getInputsMoneyAmount tx = some a ∧ getOutsMoneyAmount tx < a := by
    have := hs.amounts
    cases h : getInputsMoneyAmount tx with
    | none => simp [h] at this
    | some a => exact ⟨a, rfl, by simpa [h] using this⟩
  have hle : ¬amountIn ≤ getOutsMoneyAmount tx := UInt64.not_le.mpr hlt
  simp only [addTx, Bool.not_true, Bool.false_and, Bool.false_eq_true, if_false, hs.types, hin, hle]
  have hentry : ∀ maxUsed, EntryOK E (getTransactionHash E tx)
      (entryFor now tx (amountIn - getOutsMoneyAmount tx) true maxUsed) := fun _ =>
    ⟨rfl, hs, rfl, by simp [hin, entryFor]⟩
  cases check tx with
  | none =>
    obtain ⟨tvc', p', h1, h2, h3⟩ := insertTx_spec tvc
      { tvc with verifivationImpossible := true } hp (hentry (0, nullHash)) hnew (Or.inl rfl)
    exact ⟨tvc', p', _, h1, h2, rfl, rfl, h3⟩
  | some maxUsed =>
    obtain ⟨tvc', p', h1, h2, h3⟩ := insertTx_spec tvc
      { tvc with shouldBeRelayed :=
        tvc.shouldBeRelayed || decide (0 < amountIn - getOutsMoneyAmount tx) }
      hp (hentry maxUsed) hnew (Or.inl rfl)
    exact ⟨tvc', p', _, h1, h2, rfl, rfl, h3⟩

/-- A transaction that is not kept by a block goes in only with key images that are free. -/
theorem addTx_relayed {E : Env} {p : TxMemoryPool} {tx : Transaction} (now : ℕ)
    (check : Transaction → Option (ℕ × Hash)) (tvc : TxVerificationContext) (hp : PoolOK E p)
    (hs : Semantic E tx) (hnew : p.transactions.get (getTransactionHash E tx) = none) :
    let r := addTx now check p tx (getTransactionHash E tx) tvc false
    (r.1 = false ∧ r.2.2 = p) ∨
    (r.1 = true ∧ PoolOK E r.2.2 ∧ (∀ k ∈ keyImages tx, p.spentKeyImages.get k = none) ∧
      ∃ d, d.tx = tx ∧ d.keptByBlock = false ∧
        r.2.2.transactions = p.transactions.set (getTransactionHash E tx) d) := by
  intro r
  cases hin : getInputsMoneyAmount tx with
  | none =>
    left
    simp only [r, addTx, hin]
    split_ifs <;> exact ⟨rfl, rfl⟩
  | some amountIn =>
    simp only [r, addTx, hin, Bool.not_false, Bool.true_and, Bool.false_eq_true, if_false]
    by_cases hspent : p.haveTxKeyimgesAsSpent tx = true
    · left
      simp only [hspent, if_true, ite_self]
      exact ⟨trivial, trivial⟩
    cases check tx with
    | none =>
      left
      simp only [ite_self]
      exact ⟨trivial, trivial⟩
    | some maxUsed =>
      have hfree : ∀ k ∈ keyImages tx, p.spentKeyImages.get k = none := by
        intro k hk
        obtain ⟨i, hi, rfl⟩ := List.mem_map.mp hk
        have hmem : Txin.toKey i ∈ tx.vin := by
          rw [hs.vin_eq]
          exact List.mem_map_of_mem hi
        have hany : p.haveTxKeyimgesAsSpent tx = false := by simpa using hspent
        have := List.any_eq_false.mp hany _ hmem
        simpa using this
      have hentry : EntryOK E (getTransactionHash E tx)
          (entryFor now tx (amountIn - getOutsMoneyAmount tx) false maxUsed) :=
        ⟨rfl, hs, rfl, by simp [hin, entryFor]⟩
      obtain ⟨tvc', p', h1, h2, h3⟩ := insertTx_spec tvc
        { tvc with shouldBeRelayed :=
          tvc.shouldBeRelayed || decide (0 < amountIn - getOutsMoneyAmount tx) } hp hentry hnew
        (Or.inr hfree)
      simp only [h1]
      split_ifs
      all_goals first
        | exact Or.inl ⟨rfl, rfl⟩
        | exact Or.inr ⟨rfl, h3, hfree, _, rfl, rfl, h2⟩

theorem addTx_of_haveTx {p : TxMemoryPool} {tx : Transaction} {id : Hash} (now : ℕ)
    (check : Transaction → Option (ℕ × Hash)) (tvc : TxVerificationContext) (kept : Bool)
    (hhave : p.haveTx id = true) :
    (addTx now check p tx id tvc kept).1 = false ∧ (addTx now check p tx id tvc kept).2.2 = p := by
  have hins : ∀ d tvc added, (insertTx p id d tvc added).1 = false ∧
      (insertTx p id d tvc added).2.2 = p := fun d tvc added => by
    simp [insertTx, hhave]
  unfold addTx
  cases getInputsMoneyAmount tx with
  | none =>
    simp only
    split_ifs <;> exact ⟨rfl, rfl⟩
  | some amountIn =>
    cases check tx <;> simp only <;> split_ifs <;> first | exact ⟨rfl, rfl⟩ | exact hins _ _ _

/-- Whatever `add_tx` answers for a transaction with the core's checks behind it, it adds at most
that transaction, and nothing when it answers `false`. -/
theorem addTx_spec {E : Env} {p : TxMemoryPool} {tx : Transaction} (now : ℕ)
    (check : Transaction → Option (ℕ × Hash)) (tvc : TxVerificationContext) (kept : Bool)
    (hp : PoolOK E p) (hs : Semantic E tx) :
    let r := addTx now check p tx (getTransactionHash E tx) tvc kept
    (r.1 = false ∧ r.2.2 = p) ∨
    (r.1 = true ∧ PoolOK E r.2.2 ∧ p.transactions.get (getTransactionHash E tx) = none ∧
      (kept = true ∨ ∀ k ∈ keyImages tx, p.spentKeyImages.get k = none) ∧
      ∃ d, d.tx = tx ∧ d.keptByBlock = kept ∧
        r.2.2.transactions = p.transactions.set (getTransactionHash E tx) d) := by
  intro r
  by_cases hhave : p.haveTx (getTransactionHash E tx) = true
  · exact Or.inl (addTx_of_haveTx now check tvc kept hhave)
  have hnew : p.transactions.get (getTransactionHash E tx) = none := by
    simpa [haveTx] using hhave
  cases kept with
  | true =>
    obtain ⟨tvc', p', d, h, ht, hd, hk, hp'⟩ := addTx_kept now check tvc hp hs hnew
    have hr : r = (true, tvc', p') := h
    rw [hr]
    exact Or.inr ⟨rfl, hp', hnew, Or.inl rfl, d, hd, hk, ht⟩
  | false =>
    rcases addTx_relayed now check tvc hp hs hnew with h | ⟨h1, hp', hfree, d, hd, hk, ht⟩
    · exact Or.inl h
    · exact Or.inr ⟨h1, hp', hnew, Or.inr hfree, d, hd, hk, ht⟩

theorem eraseTx_spec {E : Env} {p : TxMemoryPool} {id : Hash} {d : TxDetails} (hp : PoolOK E p)
    (hd : p.transactions.get id = some d) : PoolOK E (eraseTx E p id d) := by
  have he := hp.entry id d hd
  obtain ⟨m', hm', him, hne⟩ := removeTransactionKeyimages_spec id (toKeyInputs d.tx)
    p.spentKeyImages he.semantic.nodup
    (fun i hi => (hp.mem_imageSet _ _).mpr ⟨d, hd, List.mem_map_of_mem hi⟩) hp.nonempty
  have heq : eraseTx E p id d = ⟨p.transactions.erase id, m'⟩ := by
    simp only [eraseTx, he.hash, he.semantic.vin_eq, hm']
  rw [heq]
  refine ⟨fun id' d' h => ?_, fun k id' => ?_, hne⟩
  · simp only [Map.get_erase] at h
    split_ifs at h with hid
    exact hp.entry id' d' h
  · rw [him]
    change _ ↔ ∃ d', (p.transactions.erase id).get id' = some d' ∧ _
    rw [Map.get_erase]
    change _ ∈ (if k ∈ keyImages d.tx then _ else _) ↔ _
    by_cases hid : id' = id
    · subst hid
      have hout : k ∉ keyImages d.tx → id' ∉ imageSet p.spentKeyImages k := fun hk hmem => by
        obtain ⟨d', hd', hk'⟩ := (hp.mem_imageSet _ _).mp hmem
        rw [hd] at hd'
        exact hk (Option.some.inj hd' ▸ hk')
      by_cases hk : k ∈ keyImages d.tx
      · simp [hk]
      · simp [hk, hout hk]
    · rw [if_neg hid, ← hp.mem_imageSet]
      by_cases hk : k ∈ keyImages d.tx <;> simp [hk, hid]

theorem removeStuckTransactions_spec {E : Env} (now : ℕ) (order : List Hash) {p : TxMemoryPool}
    (hp : PoolOK E p) :
    PoolOK E (removeStuckTransactions E now order p) ∧
      ∀ id d, (removeStuckTransactions E now order p).transactions.get id = some d →
        p.transactions.get id = some d := by
  induction order generalizing p with
  | nil => exact ⟨hp, fun _ _ h => h⟩
  | cons i l ih =>
    simp only [removeStuckTransactions, List.foldl_cons]
    cases hi : p.transactions.get i with
    | none => exact ih hp
    | some d =>
      by_cases hst : isStuck now d = true
      · obtain ⟨h1, h2⟩ := ih (eraseTx_spec hp hi)
        simp only [hst, if_true]
        refine ⟨h1, fun id d' h => ?_⟩
        have := h2 id d' h
        simp only [eraseTx, Map.get_erase] at this
        split_ifs at this
        exact this
      · simp only [hst]
        exact ih hp

end TxMemoryPool
end Boolberry
