import Boolberry.Lib.Reader
import Boolberry.TxPool

/-!
# The state file of the pool

`deinit` writes the pool through a boost archive and `init` reads it back. An
archive is the sequence of the primitive values that pass through `&`; a vector of
bytes passes as one of them. The unordered containers are written in whatever order
they iterate, and `load` declares its element before reading into it, so a field
that `serialize` does not mention keeps an indeterminate value.
-/

namespace Boolberry
open KeyValue Reading Reader

/-- A primitive value in an archive. -/
inductive Item where
  | num (v : ℕ)
  | hash (h : Hash)
  | signature (s : Signature)
  | bytes (b : Blob)
  | text (s : String)
deriving DecidableEq, Repr

def CURRENT_MEMPOOL_ARCHIVE_VER : ℕ := 12

def CURRENCY_NAME : String := "Boolberry"

/-- Read one item of the wanted kind. -/
def loadItem {α : Type} (f : Item → Option α) : Reader Item α := fun l =>
  match l with
  | [] => none
  | t :: l => (f t).map fun a => (a, l)

def loadNum : Reader Item ℕ := loadItem fun
  | .num v => some v
  | _ => none

def loadUint64 : Reader Item UInt64 := do
  let v ← loadNum
  return UInt64.ofNat v

def loadUint8 : Reader Item UInt8 := do
  let v ← loadNum
  return UInt8.ofNat v

def loadHash : Reader Item Hash := loadItem fun
  | .hash h => some h
  | _ => none

def loadSignature : Reader Item Signature := loadItem fun
  | .signature s => some s
  | _ => none

def loadBytes : Reader Item Blob := loadItem fun
  | .bytes b => some b
  | _ => none

def loadText : Reader Item String := loadItem fun
  | .text s => some s
  | _ => none

def saveVector {α : Type} (w : α → List Item) (l : List α) : List Item :=
  .num l.length :: l.flatMap w

def loadVector {α : Type} (r : Reader Item α) : Reader Item (List α) := do
  let s ← loadNum
  r.times s

def saveTxoutToScript (x : TxoutToScript) : List Item :=
  saveVector (fun k => [.hash k]) x.keys ++ [.bytes x.script]

def loadTxoutToScript : Reader Item TxoutToScript := do
  let keys ← loadVector loadHash
  let script ← loadBytes
  return ⟨keys, script⟩

/-- A variant is saved as the index of its alternative and the value. -/
def saveTxoutTarget : TxoutTarget → List Item
  | .toScript x => .num 0 :: saveTxoutToScript x
  | .toScripthash h => [.num 1, .hash h]
  | .toKey x => [.num 2, .hash x.key, .num x.mixAttr.toNat]

def loadTxoutTarget : Reader Item TxoutTarget := do
  let which ← loadNum
  if which = 0 then
    let x ← loadTxoutToScript
    return .toScript x
  else if which = 1 then
    let h ← loadHash
    return .toScripthash h
  else if which = 2 then
    let key ← loadHash
    let mixAttr ← loadUint8
    return .toKey ⟨key, mixAttr⟩
  else Reader.fail

def saveTxOut (x : TxOut) : List Item := .num x.amount.toNat :: saveTxoutTarget x.target

def loadTxOut : Reader Item TxOut := do
  let amount ← loadUint64
  let target ← loadTxoutTarget
  return ⟨amount, target⟩

def saveTxin : Txin → List Item
  | .gen height => [.num 0, .num height.toNat]
  | .toScript prev prevout sigset => [.num 1, .hash prev, .num prevout.toNat, .bytes sigset]
  | .toScripthash prev prevout script sigset =>
      [.num 2, .hash prev, .num prevout.toNat] ++ saveTxoutToScript script ++ [.bytes sigset]
  | .toKey x =>
      [.num 3, .num x.amount.toNat] ++ saveVector (fun o => [.num o.toNat]) x.keyOffsets ++
        [.hash x.kImage]

def loadTxin : Reader Item Txin := do
  let which ← loadNum
  if which = 0 then
    let height ← loadUint64
    return .gen height
  else if which = 1 then
    let prev ← loadHash
    let prevout ← loadUint64
    let sigset ← loadBytes
    return .toScript prev prevout sigset
  else if which = 2 then
    let prev ← loadHash
    let prevout ← loadUint64
    let script ← loadTxoutToScript
    let sigset ← loadBytes
    return .toScripthash prev prevout script sigset
  else if which = 3 then
    let amount ← loadUint64
    let keyOffsets ← loadVector loadUint64
    let kImage ← loadHash
    return .toKey ⟨amount, keyOffsets, kImage⟩
  else Reader.fail

def saveTransaction (x : Transaction) : List Item :=
  [.num x.version.toNat, .num x.unlockTime.toNat] ++ saveVector saveTxin x.vin ++
    saveVector saveTxOut x.vout ++ [.bytes x.extra] ++
    saveVector (saveVector fun s => [.signature s]) x.signatures

def loadTransaction : Reader Item Transaction := do
  let version ← loadUint64
  let unlockTime ← loadUint64
  let vin ← loadVector loadTxin
  let vout ← loadVector loadTxOut
  let extra ← loadBytes
  let signatures ← loadVector (loadVector loadSignature)
  return ⟨⟨version, unlockTime, vin, vout, extra⟩, signatures⟩

/-- `serialize(tx_details)`. -/
def saveTxDetails (td : TxDetails) : List Item :=
  [.num td.blobSize, .num td.fee.toNat] ++ saveTransaction td.tx ++
    [.num td.maxUsedBlockHeight, .hash td.maxUsedBlockId, .num td.lastFailedHeight,
      .hash td.lastFailedId, .num td.receiveTime]

/-- The same list of fields read into an entry whose `kept_by_block` is whatever was there. -/
def loadTxDetails (keptByBlock : Bool) : Reader Item TxDetails := do
  let blobSize ← loadNum
  let fee ← loadUint64
  let tx ← loadTransaction
  let maxUsedBlockHeight ← loadNum
  let maxUsedBlockId ← loadHash
  let lastFailedHeight ← loadNum
  let lastFailedId ← loadHash
  let receiveTime ← loadNum
  return ⟨tx, blobSize, fee, maxUsedBlockId, maxUsedBlockHeight, keptByBlock, lastFailedHeight,
    lastFailedId, receiveTime⟩

/-- `save` of an unordered map that iterates in the order of the list. -/
def saveMap {K W : Type} (wk : K → List Item) (ww : W → List Item) (x : List (K × W)) : List Item :=
  .num x.length :: x.flatMap fun e => wk e.1 ++ ww e.2

/-- The loop of `load`; `rv i` reads into the value declared in turn `i`. -/
def loadMapGo {K V : Type} [DecidableEq K] (rk : Reader Item K) (rv : ℕ → Reader Item V) :
    (n i : ℕ) → Map K V → Reader Item (Map K V)
  | 0, _, x => pure x
  | n + 1, i, x => do
      let k ← rk
      let v ← rv i
      loadMapGo rk rv n (i + 1) (x.insertNew k v)

def loadMap {K V : Type} [DecidableEq K] (rk : Reader Item K) (rv : ℕ → Reader Item V) :
    Reader Item (Map K V) := do
  let s ← loadNum
  loadMapGo rk rv s 0 ∅

def saveSet (x : List Hash) : List Item := saveVector (fun h => [.hash h]) x

def loadSet : Reader Item (Finset Hash) := do
  let l ← loadVector loadHash
  return l.toFinset

namespace TxMemoryPool

/-- `serialize` into an archive, with the orders in which the two containers iterate. -/
def save (txs : List (Hash × TxDetails)) (images : List (KeyImage × List Hash)) : List Item :=
  [.num CURRENT_MEMPOOL_ARCHIVE_VER, .text CURRENCY_NAME] ++
    saveMap (fun id => [.hash id]) saveTxDetails txs ++ saveMap (fun k => [.hash k]) saveSet images

/-- `serialize` from an archive into a new pool; a wrong project name is an exception. `junk i` is
the value that memory happens to hold for `kept_by_block` in turn `i`. -/
def load (junk : ℕ → Bool) : Reader Item TxMemoryPool := do
  let version ← loadNum
  if version < CURRENT_MEMPOOL_ARCHIVE_VER then return empty
  else
    let projectName ← loadText
    if projectName ≠ CURRENCY_NAME then Reader.fail
    else
      let transactions ← loadMap loadHash fun i => loadTxDetails (junk i)
      let spentKeyImages ← loadMap loadHash fun _ => loadSet
      return ⟨transactions, spentKeyImages⟩

/-- The lists are the contents of the pool's containers, in some order. -/
structure Enumerates (p : TxMemoryPool) (txs : List (Hash × TxDetails))
    (images : List (KeyImage × List Hash)) : Prop where
  txs_nodup : (txs.map Prod.fst).Nodup
  mem_txs : ∀ id d, (id, d) ∈ txs ↔ p.transactions.get id = some d
  images_nodup : (images.map Prod.fst).Nodup
  mem_images : ∀ k s, (∃ l, (k, l) ∈ images ∧ l.toFinset = s) ↔ p.spentKeyImages.get k = some s

end TxMemoryPool

theorem loadNum_cons (v : ℕ) (l : List Item) : loadNum (.num v :: l) = some (v, l) := rfl

theorem loadUint64_cons (v : UInt64) (l : List Item) :
    loadUint64 (.num v.toNat :: l) = some (v, l) := by
  rw [loadUint64, bind_of_eq (loadNum_cons _ _), UInt64.ofNat_toNat]
  rfl

theorem loadUint8_cons (v : UInt8) (l : List Item) :
    loadUint8 (.num v.toNat :: l) = some (v, l) := by
  rw [loadUint8, bind_of_eq (loadNum_cons _ _), UInt8.ofNat_toNat]
  rfl

theorem loadHash_cons (h : Hash) (l : List Item) : loadHash (.hash h :: l) = some (h, l) := rfl

theorem loadBytes_cons (b : Blob) (l : List Item) : loadBytes (.bytes b :: l) = some (b, l) := rfl

theorem loadText_cons (s : String) (l : List Item) : loadText (.text s :: l) = some (s, l) := rfl

theorem inverts_loadVector {α : Type} {r : Reader Item α} {w : α → List Item}
    (h : Inverts r w fun _ => True) : Inverts (loadVector r) (saveVector w) fun _ => True := by
  intro l _ rest
  rw [loadVector, saveVector, List.cons_append, bind_of_eq (loadNum_cons _ _)]
  exact h.times (fun _ _ => trivial) rest

theorem inverts_loadHash : Inverts loadHash (fun h => [.hash h]) fun _ => True :=
  fun h _ rest => loadHash_cons h rest

theorem inverts_loadUint64 :
    Inverts loadUint64 (fun v : UInt64 => [.num v.toNat]) fun _ => True :=
  fun v _ rest => loadUint64_cons v rest

theorem inverts_loadSignature : Inverts loadSignature (fun s => [.signature s]) fun _ => True :=
  fun _ _ _ => rfl

theorem inverts_loadTxoutToScript :
    Inverts loadTxoutToScript saveTxoutToScript fun _ => True := by
  intro x _ rest
  rw [loadTxoutToScript, saveTxoutToScript, List.append_assoc,
    bind_of_eq (inverts_loadVector inverts_loadHash _ trivial _), List.cons_append,
    bind_of_eq (loadBytes_cons _ _)]
  rfl

theorem inverts_loadTxOut : Inverts loadTxOut saveTxOut fun _ => True := by
  intro x _ rest
  have htarget : loadTxoutTarget (saveTxoutTarget x.target ++ rest) = some (x.target, rest) := by
    unfold loadTxoutTarget
    cases x.target with
    | toScript out =>
      rw [saveTxoutTarget, List.cons_append, bind_of_eq (loadNum_cons _ _), if_pos rfl,
        bind_of_eq (inverts_loadTxoutToScript _ trivial rest)]
      rfl
    | toScripthash h => rfl
    | toKey out =>
      simp only [saveTxoutTarget, List.cons_append, List.nil_append]
      rw [bind_of_eq (loadNum_cons _ _), if_neg (by decide), if_neg (by decide), if_pos rfl,
        bind_of_eq (loadHash_cons _ _), bind_of_eq (loadUint8_cons _ _)]
      rfl
  rw [loadTxOut, saveTxOut, List.cons_append, bind_of_eq (loadUint64_cons _ _), bind_of_eq htarget]
  rfl

theorem inverts_loadTxin : Inverts loadTxin saveTxin fun _ => True := by
  intro x _ rest
  unfold loadTxin
  cases x with
  | gen height =>
    simp only [saveTxin, List.cons_append, List.nil_append]
    rw [bind_of_eq (loadNum_cons _ _), if_pos rfl, bind_of_eq (loadUint64_cons _ _)]
    rfl
  | toScript prev prevout sigset =>
    simp only [saveTxin, List.cons_append, List.nil_append]
    rw [bind_of_eq (loadNum_cons _ _), if_neg (by decide), if_pos rfl,
      bind_of_eq (loadHash_cons _ _), bind_of_eq (loadUint64_cons _ _),
      bind_of_eq (loadBytes_cons _ _)]
    rfl
  | toScripthash prev prevout script sigset =>
    simp only [saveTxin, List.cons_append, List.nil_append, List.append_assoc]
    rw [bind_of_eq (loadNum_cons _ _), if_neg (by decide), if_neg (by decide), if_pos rfl,
      bind_of_eq (loadHash_cons _ _), bind_of_eq (loadUint64_cons _ _),
      bind_of_eq (inverts_loadTxoutToScript _ trivial _), bind_of_eq (loadBytes_cons _ _)]
    rfl
  | toKey x =>
    simp only [saveTxin, List.cons_append, List.nil_append, List.append_assoc]
    rw [bind_of_eq (loadNum_cons _ _), if_neg (by decide), if_neg (by decide), if_neg (by decide),
      if_pos rfl, bind_of_eq (loadUint64_cons _ _),
      bind_of_eq (inverts_loadVector inverts_loadUint64 _ trivial _),
      bind_of_eq (loadHash_cons _ _)]
    rfl

theorem inverts_loadTransaction : Inverts loadTransaction saveTransaction fun _ => True := by
  intro x _ rest
  simp only [saveTransaction, List.cons_append, List.nil_append, List.append_assoc]
  rw [loadTransaction, bind_of_eq (loadUint64_cons _ _), bind_of_eq (loadUint64_cons _ _),
    bind_of_eq (inverts_loadVector inverts_loadTxin _ trivial _),
    bind_of_eq (inverts_loadVector inverts_loadTxOut _ trivial _), bind_of_eq (loadBytes_cons _ _),
    bind_of_eq (inverts_loadVector (inverts_loadVector inverts_loadSignature) _ trivial rest)]
  rfl

theorem loadTxDetails_save (keptByBlock : Bool) (td : TxDetails) (rest : List Item) :
    loadTxDetails keptByBlock (saveTxDetails td ++ rest) =
      some ({ td with keptByBlock := keptByBlock }, rest) := by
  simp only [saveTxDetails, List.cons_append, List.nil_append, List.append_assoc]
  rw [loadTxDetails, bind_of_eq (loadNum_cons _ _), bind_of_eq (loadUint64_cons _ _),
    bind_of_eq (inverts_loadTransaction _ trivial _), bind_of_eq (loadNum_cons _ _),
    bind_of_eq (loadHash_cons _ _), bind_of_eq (loadNum_cons _ _), bind_of_eq (loadHash_cons _ _),
    bind_of_eq (loadNum_cons _ _)]
  rfl

theorem loadSet_save (l : List Hash) (rest : List Item) :
    loadSet (saveSet l ++ rest) = some (l.toFinset, rest) := by
  rw [loadSet, saveSet, bind_of_eq (inverts_loadVector inverts_loadHash _ trivial rest)]
  rfl

section Maps

variable {K V W : Type} [DecidableEq K] {rk : Reader Item K} {wk : K → List Item}
  {rv : ℕ → Reader Item V} {ww : W → List Item} {g : W → V}

/-- The induction is on the entries that are still to be read. -/
theorem loadMapGo_save (hk : Inverts rk wk fun _ => True)
    (hv : ∀ i w rest, rv i (ww w ++ rest) = some (g w, rest)) (l : List (K × W)) (i : ℕ)
    (x : Map K V) (rest : List Item) :
    loadMapGo rk rv l.length i x ((l.flatMap fun e => wk e.1 ++ ww e.2) ++ rest) =
      some (l.foldl (fun x e => x.insertNew e.1 (g e.2)) x, rest) := by
  induction l generalizing i x with
  | nil => rfl
  | cons e l ih =>
    rw [List.length_cons, loadMapGo, List.flatMap_cons, List.append_assoc, List.append_assoc,
      bind_of_eq (hk _ trivial _), bind_of_eq (hv _ _ _), List.foldl_cons]
    exact ih _ _

theorem loadMap_save (hk : Inverts rk wk fun _ => True)
    (hv : ∀ i w rest, rv i (ww w ++ rest) = some (g w, rest)) (l : List (K × W))
    (rest : List Item) :
    loadMap rk rv (saveMap wk ww l ++ rest) =
      some (l.foldl (fun x e => x.insertNew e.1 (g e.2)) ∅, rest) := by
  rw [loadMap, saveMap, List.cons_append, bind_of_eq (loadNum_cons _ _)]
  exact loadMapGo_save hk hv l 0 ∅ rest

end Maps

namespace TxMemoryPool

variable {p : TxMemoryPool} {txs : List (Hash × TxDetails)} {images : List (KeyImage × List Hash)}

theorem load_save (junk : ℕ → Bool) (m : Map Hash TxDetails) (h : p.Enumerates txs images)
    (htxs : ∀ rest, loadMap loadHash (fun i => loadTxDetails (junk i))
      (saveMap (fun id => [.hash id]) saveTxDetails txs ++ rest) = some (m, rest)) :
    (load junk).all (save txs images) = some ⟨m, p.spentKeyImages⟩ := by
  have himages := loadMap_save inverts_loadHash (fun _ l rest => loadSet_save l rest) images []
  rw [List.append_nil] at himages
  have hsame : images.foldl (fun x e => x.insertNew e.1 e.2.toFinset) ∅ = p.spentKeyImages := by
    refine Map.ext fun k => Option.ext fun s => ?_
    rw [Map.get_foldl_insertNew List.toFinset h.images_nodup, h.mem_images]
  rw [hsame] at himages
  refine all_eq_some.mpr ?_
  simp only [save, List.cons_append, List.nil_append]
  rw [load, bind_of_eq (loadNum_cons _ _), if_neg (lt_irrefl _), bind_of_eq (loadText_cons _ _),
    if_neg (by simp), bind_of_eq (htxs _), bind_of_eq himages]
  rfl

/-- Memory that holds `b` in every turn makes every entry of the loaded pool say `b`. -/
theorem load_save_const (b : Bool) (h : p.Enumerates txs images) :
    ∃ m, (load fun _ => b).all (save txs images) = some ⟨m, p.spentKeyImages⟩ ∧
      ∀ id d, p.transactions.get id = some d → m.get id = some { d with keptByBlock := b } := by
  refine ⟨_, load_save _ _ h (loadMap_save inverts_loadHash
    (fun _ td rest => loadTxDetails_save b td rest) txs), fun id d hd => ?_⟩
  have hget := Map.get_foldl_insertNew (fun td : TxDetails => { td with keptByBlock := b })
    h.txs_nodup id
  exact (hget _).mpr ⟨d, (h.mem_txs id d).mpr hd, rfl⟩

theorem exists_enumerates (p : TxMemoryPool) : ∃ txs images, p.Enumerates txs images := by
  have hpairs {K V W : Type} [DecidableEq K] (m : Map K V) (f : V → W) :
      ∃ l : List (K × W), (l.map Prod.fst).Nodup ∧
        ∀ k w, (k, w) ∈ l ↔ ∃ v, m.get k = some v ∧ f v = w := by
    refine ⟨m.keys.toList.filterMap fun k => (m.get k).map fun v => (k, f v), ?_, fun k w => ?_⟩
    · have hkeys : (m.keys.toList.filterMap fun k => (m.get k).map fun v => (k, f v)).map Prod.fst =
          m.keys.toList := by
        rw [List.map_filterMap]
        refine (List.filterMap_congr (g := some) fun k hk => ?_).trans List.filterMap_some
        obtain ⟨v, hv⟩ := Map.mem_keys.mp (Finset.mem_toList.mp hk)
        simp [hv]
      rw [hkeys]
      exact m.keys.nodup_toList
    · simp only [List.mem_filterMap, Finset.mem_toList, Map.mem_keys, Option.map_eq_some_iff,
        Prod.mk.injEq]
      constructor
      · rintro ⟨k', -, v, hv, rfl, rfl⟩
        exact ⟨v, hv, rfl⟩
      · rintro ⟨v, hv, rfl⟩
        exact ⟨k, ⟨v, hv⟩, v, hv, rfl, rfl⟩
  obtain ⟨txs, htxs, hmem⟩ := hpairs p.transactions id
  obtain ⟨images, himages, hmem'⟩ := hpairs p.spentKeyImages Finset.toList
  refine ⟨txs, images, htxs, fun id d => ?_, himages, fun k s => ?_⟩
  · rw [hmem]
    simp
  · constructor
    · rintro ⟨l, hl, rfl⟩
      obtain ⟨v, hv, rfl⟩ := (hmem' k l).mp hl
      rw [Finset.toList_toFinset, hv]
    · intro hs
      exact ⟨s.toList, (hmem' k _).mpr ⟨s, hs, rfl⟩, Finset.toList_toFinset s⟩

/-- Saving and loading gives the pool back, whatever memory holds, exactly when it has no entries:
`kept_by_block` is not saved. -/
theorem restored_iff (p : TxMemoryPool) :
    (∀ txs images, p.Enumerates txs images →
      ∀ junk, (load junk).all (save txs images) = some p) ↔ p.transactions = ∅ := by
  constructor
  · intro h
    obtain ⟨txs, images, henum⟩ := p.exists_enumerates
    refine Map.ext fun id => ?_
    rw [Map.get_empty]
    refine Option.eq_none_iff_forall_not_mem.mpr fun d hd => ?_
    -- memory that holds the other value
    obtain ⟨m, hm, hget⟩ := load_save_const (!d.keptByBlock) henum
    rw [h txs images henum] at hm
    have hsame : p.transactions = m := congrArg transactions (Option.some.inj hm)
    have hd' := hget id d hd
    rw [← hsame, show p.transactions.get id = some d from hd] at hd'
    have hflag := congrArg TxDetails.keptByBlock (Option.some.inj hd')
    simp at hflag
  · intro hempty txs images henum junk
    have hnil : txs = [] := by
      refine List.eq_nil_iff_forall_not_mem.mpr fun e he => ?_
      have := (henum.mem_txs e.1 e.2).mp he
      rw [hempty, Map.get_empty] at this
      cases this
    have hload := load_save junk ∅ henum fun rest => by
      rw [hnil]
      rfl
    rw [hload, ← hempty]

/-- A pool with one transaction that came with a block. -/
def keptEntry : TxDetails :=
  entryFor 0 ⟨⟨1, 0, [.toKey ⟨5, [0], 3⟩], [], []⟩, []⟩ 5 true (0, nullHash)

def keptPool : TxMemoryPool := ⟨(∅ : Map Hash TxDetails).set 1 keptEntry, (∅ : Map KeyImage _).set 3 {1}⟩

theorem enumerates_keptPool : keptPool.Enumerates [(1, keptEntry)] [(3, [1])] := by
  refine ⟨by simp, fun id d => ?_, by simp, fun k s => ?_⟩
  · simp only [keptPool, Map.get_set, Map.get_empty, List.mem_singleton, Prod.mk.injEq]
    split_ifs with h
    · simp [h, eq_comm]
    · exact iff_of_false (fun hd => h hd.1) (by simp)
  · simp only [keptPool, Map.get_set, Map.get_empty, List.mem_singleton, Prod.mk.injEq]
    split_ifs with h
    · simp [h]
    · refine iff_of_false ?_ (by simp)
      rintro ⟨_, hl, -⟩
      exact h hl.1

/-- It comes back as one that did not. -/
theorem keptByBlock_lost :
    ∃ q, (load fun _ => false).all (save [(1, keptEntry)] [(3, [1])]) = some q ∧
      keptPool.transactions.get 1 = some keptEntry ∧ keptEntry.keptByBlock = true ∧
      q.transactions.get 1 = some { keptEntry with keptByBlock := false } := by
  obtain ⟨m, hm, hget⟩ := load_save_const false enumerates_keptPool
  have hkept : keptPool.transactions.get 1 = some keptEntry := Map.get_set_self _ _ _
  exact ⟨_, hm, hkept, rfl, hget 1 keptEntry hkept⟩

end TxMemoryPool

end Boolberry
