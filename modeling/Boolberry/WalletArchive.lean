import Boolberry.Lib.Aborting
import Boolberry.PoolArchive
import Boolberry.Wallet

/-!
# The wallet file

`store` writes the wallet through a boost archive and `load` reads it back. One body of
`serialize` serves both directions, so a statement meant for one of them runs in the other
as well: the one that clears the fee of a history entry before it is read also clears it
before it is written, in memory and in the file. The archive keeps the class versions of
history entries and unconfirmed transfers; here each of them is preceded by its own.
-/

namespace Boolberry
open KeyValue Reading Reader Aborting

def WALLET_ARCHIVE_VER : ℕ := 11
def UNCONFIRMED_TRANSFER_DETAILS_VER : ℕ := 3
def WALLET_TRANSFER_INFO_VER : ℕ := 3

def saveBool (b : Bool) : Item := .num (if b then 1 else 0)

def loadBool : Reader Item Bool := do
  let v ← loadNum
  return v != 0

def loadUint32 : Reader Item UInt32 := do
  let v ← loadNum
  return UInt32.ofNat v

def saveTransferDetails (x : TransferDetails) : List Item :=
  [.num x.blockHeight, .num x.globalOutputIndex.toNat, .num x.internalOutputIndex] ++
    saveTransaction x.tx ++ [saveBool x.spent, .hash x.keyImage]

def loadTransferDetails : Reader Item TransferDetails := do
  let blockHeight ← loadNum
  let globalOutputIndex ← loadUint64
  let internalOutputIndex ← loadNum
  let tx ← loadTransaction
  let spent ← loadBool
  let keyImage ← loadHash
  return ⟨blockHeight, tx, internalOutputIndex, globalOutputIndex, spent, keyImage⟩

def saveUnconfirmed (x : UnconfirmedTransferDetails) : List Item :=
  [.num UNCONFIRMED_TRANSFER_DETAILS_VER, .num x.change.toNat, .num x.sentTime] ++
    saveTransaction x.tx ++ [.bytes x.recipient, .bytes x.recipientAlias]

def loadUnconfirmed : Reader Item UnconfirmedTransferDetails := do
  let ver ← loadNum
  let change ← loadUint64
  let sentTime ← loadNum
  let tx ← loadTransaction
  if ver < 2 then return ⟨tx, change, sentTime, [], []⟩
  else
    let recipient ← loadBytes
    if ver < 3 then return ⟨tx, change, sentTime, recipient, []⟩
    else
      let recipientAlias ← loadBytes
      return ⟨tx, change, sentTime, recipient, recipientAlias⟩

def savePayment (x : PaymentDetails) : List Item :=
  [.hash x.txHash, .num x.amount.toNat, .num x.blockHeight, .num x.unlockTime.toNat]

def loadPayment : Reader Item PaymentDetails := do
  let txHash ← loadHash
  let amount ← loadUint64
  let blockHeight ← loadNum
  let unlockTime ← loadUint64
  return ⟨txHash, amount, blockHeight, unlockTime⟩

def saveAddress (x : AccountPublicAddress) : List Item := [.hash x.spendPublicKey, .hash x.viewPublicKey]

def loadAddress : Reader Item AccountPublicAddress := do
  let spendPublicKey ← loadHash
  let viewPublicKey ← loadHash
  return ⟨spendPublicKey, viewPublicKey⟩

/-- The first statement of `serialize(wallet_transfer_info)`. -/
def resetFee (x : WalletTransferInfo) : WalletTransferInfo := { x with fee := 0 }

/-- The rest of it into an archive. The unlock time is not written. -/
def saveTransferInfo (x : WalletTransferInfo) : List Item :=
  [.num WALLET_TRANSFER_INFO_VER, .num x.amount.toNat, .num x.timestamp.toNat, .bytes x.txHash,
    .num x.height, .num x.txBlobSize.toNat, .bytes x.paymentId, .bytes x.destinations,
    saveBool x.isIncome] ++ saveVector (fun v : UInt64 => [.num v.toNat]) x.td.rcv ++
    saveVector (fun v : UInt64 => [.num v.toNat]) x.td.spn ++ saveTransaction x.tx ++
    [.bytes x.destinationAlias, .num x.fee.toNat]

/-- `serialize(wallet_transfer_info)` from an archive. -/
def loadTransferInfo : Reader Item WalletTransferInfo := do
  let ver ← loadNum
  let amount ← loadUint64
  let timestamp ← loadUint64
  let txHash ← loadBytes
  let height ← loadNum
  let txBlobSize ← loadUint32
  let paymentId ← loadBytes
  let destinations ← loadBytes
  let isIncome ← loadBool
  let rcv ← loadVector loadUint64
  let spn ← loadVector loadUint64
  let tx ← loadTransaction
  let x : WalletTransferInfo :=
    { amount, timestamp, txHash, height, txBlobSize, paymentId, destinations, isIncome, td := ⟨rcv, spn⟩, tx }
  if ver < 2 then return x
  else
    let destinationAlias ← loadBytes
    if ver < 3 then return { x with destinationAlias }
    else
      let fee ← loadUint64
      return { x with destinationAlias, fee, unlockTime := tx.unlockTime }

/-- The orders in which the unordered containers of a wallet iterate. -/
structure WalletOrder where
  keyImages : List (KeyImage × ℕ)
  unconfirmedTxs : List (Hash × UnconfirmedTransferDetails)
  payments : List (Blob × PaymentDetails)
  txKeys : List (Hash × SecretKey)
  pendingKeyImages : List (PublicKey × KeyImage)

namespace Wallet2

/-- The lists are the contents of the wallet's containers. -/
structure Enumerates (w : Wallet2) (o : WalletOrder) : Prop where
  keyImages : w.keyImages.Enumerates o.keyImages
  unconfirmedTxs : w.unconfirmedTxs.Enumerates o.unconfirmedTxs
  payments : o.payments.Perm w.payments
  txKeys : w.txKeys.Enumerates o.txKeys
  pendingKeyImages : w.pendingKeyImages.Enumerates o.pendingKeyImages

/-- `serialize` of a wallet into an archive. -/
def save (o : WalletOrder) (w : Wallet2) : List Item :=
  [.num WALLET_ARCHIVE_VER] ++ saveVector (fun h => [.hash h]) w.blockchain ++
    saveVector saveTransferDetails w.transfers ++ saveAddress w.accountPublicAddress ++
    saveMap (fun k => [.hash k]) (fun i => [.num i]) o.keyImages ++
    saveMap (fun k => [.hash k]) saveUnconfirmed o.unconfirmedTxs ++
    saveMap (fun k => [.bytes k]) savePayment o.payments ++
    saveVector saveTransferInfo w.transferHistory ++
    saveMap (fun k => [.hash k]) (fun k => [.hash k]) o.txKeys ++
    saveMap (fun k => [.hash k]) (fun k => [.hash k]) o.pendingKeyImages

/-- `store`: the file, and the wallet it leaves. -/
def store (o : WalletOrder) (w : Wallet2) : List Item × Wallet2 :=
  let w := { w with
    accountPublicAddress := w.account.keys.accountAddress
    transferHistory := w.transferHistory.map resetFee }
  (save o w, w)

/-- The entries of an unordered multimap, in the order they are emplaced. -/
def loadMultimap {K V : Type} (rk : Reader Item K) (rv : Reader Item V) : Reader Item (List (K × V)) :=
  loadVector do
    let k ← rk
    let v ← rv
    return (k, v)

/-- `serialize` of a wallet from an archive. Fields an older version does not have are left alone. -/
def read (w : Wallet2) : Reader Item Wallet2 := do
  let ver ← loadNum
  if ver < 5 then return w
  else
    let blockchain ← loadVector loadHash
    let transfers ← loadVector loadTransferDetails
    let accountPublicAddress ← loadAddress
    let keyImages ← loadMap loadHash fun _ => loadNum
    let w := { w with blockchain, transfers, accountPublicAddress, keyImages }
    if ver < 6 then return w
    else
      let unconfirmedTxs ← loadMap loadHash fun _ => loadUnconfirmed
      let w := { w with unconfirmedTxs }
      if ver < 7 then return w
      else
        let payments ← loadMultimap loadBytes loadPayment
        let w := { w with payments }
        if ver < 8 then return w
        else
          let transferHistory ← loadVector loadTransferInfo
          let w := { w with transferHistory }
          if ver < 9 then return w
          else
            let txKeys ← loadMap loadHash fun _ => loadHash
            let w := { w with txKeys }
            if ver < 11 then return w
            else
              let pendingKeyImages ← loadMap loadHash fun _ => loadHash
              return { w with pendingKeyImages }

/-- `load_keys2ki` on a file container with the given elements: the wallet and `need_to_resync`, `none`
when it throws. -/
def loadKeys2ki (container : List (PublicKey × KeyImage)) (w : Wallet2) : Option (Wallet2 × Bool) :=
  let w := { w with pendingKeyImagesFileContainer := container }
  if w.pendingKeyImages.keys.card < container.length then
    if (container.map Prod.fst).Nodup then
      some ({ w with pendingKeyImages := container.foldl (fun m e => m.insertNew e.1 e.2) ∅ }, true)
    else none
  else if container.length < w.pendingKeyImages.keys.card then none
  else some (w, false)

/-- The end of `load`: the pending key images of a view-only wallet, and the resync. -/
def finishLoad (E : Env) (container : List (PublicKey × KeyImage)) (needToResync : Bool) (w : Wallet2) :
    Except Wallet2 Wallet2 :=
  match if w.isViewOnly then loadKeys2ki container w else some (w, false) with
  | none => .error w
  | some (w', resync) =>
      if needToResync || resync then
        .ok { w'.clear E with accountPublicAddress := w.account.keys.accountAddress }
      else .ok w'

/-- `load` into the object `w`: the keys file has the account and says whether it is view-only, `file` is
the wallet file, if there is one, `container` the file of the pending key images and `broken` what a
read that fails leaves in the object. -/
def load (E : Env) (account : AccountBase) (isViewOnly : Bool) (file : Option (List Item))
    (container : List (PublicKey × KeyImage)) (broken : Wallet2 → Wallet2) (w : Wallet2) :
    Except Wallet2 Wallet2 :=
  let w := { w.clear E with account, isViewOnly }
  match file with
  | none =>
      let w := { w with accountPublicAddress := account.keys.accountAddress }
      if isViewOnly then
        match loadKeys2ki container w with
        | none => .error w
        | some (w, _) => .ok w
      else .ok w
  | some items =>
      match w.read items with
      | none => finishLoad E container true { broken w with account, isViewOnly }
      | some (w, _) => finishLoad E container
          (decide (w.blockchain = [] ∨ w.accountPublicAddress ≠ account.keys.accountAddress)) w

end Wallet2

theorem loadUint32_cons (v : UInt32) (l : List Item) :
    loadUint32 (.num v.toNat :: l) = some (v, l) := by
  rw [loadUint32, bind_of_eq (loadNum_cons _ _), UInt32.ofNat_toNat]
  rfl

theorem loadBool_cons (b : Bool) (l : List Item) : loadBool (saveBool b :: l) = some (b, l) := by
  rw [loadBool, saveBool, bind_of_eq (loadNum_cons _ _)]
  cases b <;> rfl

theorem inverts_loadBytes : Inverts loadBytes (fun b => [.bytes b]) fun _ => True :=
  fun b _ rest => loadBytes_cons b rest

theorem inverts_loadTransferDetails :
    Inverts loadTransferDetails saveTransferDetails fun _ => True := by
  intro x _ rest
  simp only [saveTransferDetails, List.cons_append, List.nil_append, List.append_assoc]
  rw [loadTransferDetails, bind_of_eq (loadNum_cons _ _), bind_of_eq (loadUint64_cons _ _),
    bind_of_eq (loadNum_cons _ _), bind_of_eq (inverts_loadTransaction _ trivial _),
    bind_of_eq (loadBool_cons _ _), bind_of_eq (loadHash_cons _ _)]
  rfl

theorem inverts_loadUnconfirmed : Inverts loadUnconfirmed saveUnconfirmed fun _ => True := by
  intro x _ rest
  simp only [saveUnconfirmed, List.cons_append, List.nil_append, List.append_assoc]
  rw [loadUnconfirmed, bind_of_eq (loadNum_cons _ _), bind_of_eq (loadUint64_cons _ _),
    bind_of_eq (loadNum_cons _ _), bind_of_eq (inverts_loadTransaction _ trivial _),
    if_neg (by decide), bind_of_eq (loadBytes_cons _ _), if_neg (by decide),
    bind_of_eq (loadBytes_cons _ _)]
  rfl

theorem inverts_loadPayment : Inverts loadPayment savePayment fun _ => True := by
  intro x _ rest
  simp only [savePayment, List.cons_append, List.nil_append]
  rw [loadPayment, bind_of_eq (loadHash_cons _ _), bind_of_eq (loadUint64_cons _ _),
    bind_of_eq (loadNum_cons _ _), bind_of_eq (loadUint64_cons _ _)]
  rfl

theorem inverts_loadAddress : Inverts loadAddress saveAddress fun _ => True := by
  intro x _ rest
  simp only [saveAddress, List.cons_append, List.nil_append]
  rw [loadAddress, bind_of_eq (loadHash_cons _ _), bind_of_eq (loadHash_cons _ _)]
  rfl

theorem loadTransferInfo_save (x : WalletTransferInfo) (rest : List Item) :
    loadTransferInfo (saveTransferInfo x ++ rest) =
      some ({ x with unlockTime := x.tx.unlockTime }, rest) := by
  simp only [saveTransferInfo, List.cons_append, List.nil_append, List.append_assoc]
  rw [loadTransferInfo, bind_of_eq (loadNum_cons _ _), bind_of_eq (loadUint64_cons _ _),
    bind_of_eq (loadUint64_cons _ _), bind_of_eq (loadBytes_cons _ _), bind_of_eq (loadNum_cons _ _),
    bind_of_eq (loadUint32_cons _ _), bind_of_eq (loadBytes_cons _ _),
    bind_of_eq (loadBytes_cons _ _), bind_of_eq (loadBool_cons _ _),
    bind_of_eq (inverts_loadVector inverts_loadUint64 _ trivial _),
    bind_of_eq (inverts_loadVector inverts_loadUint64 _ trivial _),
    bind_of_eq (inverts_loadTransaction _ trivial _), if_neg (by decide),
    bind_of_eq (loadBytes_cons _ _), if_neg (by decide), bind_of_eq (loadUint64_cons _ _)]
  rfl

/-- A vector whose elements come back as other ones. -/
theorem loadVector_save {α : Type} {r : Reader Item α} {w : α → List Item} {g : α → α}
    (h : ∀ a rest, r (w a ++ rest) = some (g a, rest)) (l : List α) (rest : List Item) :
    loadVector r (saveVector w l ++ rest) = some (l.map g, rest) := by
  rw [loadVector, saveVector, List.cons_append, bind_of_eq (loadNum_cons _ _)]
  induction l with
  | nil => rfl
  | cons a l ih =>
    rw [List.length_cons, times, List.flatMap_cons, List.append_assoc, bind_of_eq (h a _),
      bind_of_eq ih]
    rfl

namespace Wallet2

section Containers

variable {K V : Type} {rk : Reader Item K} {wk : K → List Item} {rv : Reader Item V}
  {wv : V → List Item}

theorem loadMultimap_save (hk : Inverts rk wk fun _ => True) (hv : Inverts rv wv fun _ => True)
    (l : List (K × V)) (rest : List Item) :
    loadMultimap rk rv (saveMap wk wv l ++ rest) = some (l, rest) := by
  have hentry : Inverts (do let k ← rk; let v ← rv; return (k, v))
      (fun e : K × V => wk e.1 ++ wv e.2) fun _ => True := by
    intro e _ rest
    rw [List.append_assoc, bind_of_eq (hk _ trivial _), bind_of_eq (hv _ trivial _)]
    rfl
  exact inverts_loadVector hentry l trivial rest

variable [DecidableEq K]

theorem loadMap_enumerates (hk : Inverts rk wk fun _ => True) (hv : Inverts rv wv fun _ => True)
    {m : Map K V} {l : List (K × V)} (h : m.Enumerates l) (rest : List Item) :
    loadMap rk (fun _ => rv) (saveMap wk wv l ++ rest) = some (m, rest) := by
  have hload := loadMap_save hk (fun (_ : ℕ) v rest => hv v trivial rest) l rest
  rw [hload]
  exact congrArg (fun m => some (m, rest)) h.foldl_insertNew

end Containers

/-- What the file of a wallet is read into: the history with its unlock times taken from the
transactions, the payments in the order they were written, the account as it was. -/
def restored (o : WalletOrder) (w w₀ : Wallet2) : Wallet2 :=
  { w with
    account := w₀.account
    isViewOnly := w₀.isViewOnly
    pendingKeyImagesFileContainer := w₀.pendingKeyImagesFileContainer
    payments := o.payments
    transferHistory := w.transferHistory.map fun x => { x with unlockTime := x.tx.unlockTime } }

theorem read_save {w : Wallet2} {o : WalletOrder} (h : w.Enumerates o) (w₀ : Wallet2) :
    w₀.read (save o w) = some (restored o w w₀, []) := by
  have hnum : Inverts loadNum (fun i => [.num i]) fun _ => True := fun i _ rest => loadNum_cons i rest
  have hpending := loadMap_enumerates inverts_loadHash inverts_loadHash h.pendingKeyImages []
  rw [List.append_nil] at hpending
  simp only [save, List.cons_append, List.nil_append, List.append_assoc]
  rw [read, bind_of_eq (loadNum_cons _ _), if_neg (by decide),
    bind_of_eq (inverts_loadVector inverts_loadHash _ trivial _),
    bind_of_eq (inverts_loadVector inverts_loadTransferDetails _ trivial _),
    bind_of_eq (inverts_loadAddress _ trivial _),
    bind_of_eq (loadMap_enumerates inverts_loadHash hnum h.keyImages _), if_neg (by decide),
    bind_of_eq (loadMap_enumerates inverts_loadHash inverts_loadUnconfirmed h.unconfirmedTxs _),
    if_neg (by decide), bind_of_eq (loadMultimap_save inverts_loadBytes inverts_loadPayment _ _),
    if_neg (by decide), bind_of_eq (loadVector_save loadTransferInfo_save _ _), if_neg (by decide),
    bind_of_eq (loadMap_enumerates inverts_loadHash inverts_loadHash h.txKeys _), if_neg (by decide),
    bind_of_eq hpending]
  rfl

theorem loadKeys2ki_card {container : List (PublicKey × KeyImage)} {w w' : Wallet2} {resync : Bool}
    (h : loadKeys2ki container w = some (w', resync)) :
    w'.pendingKeyImages.keys.card = container.length := by
  unfold loadKeys2ki at h
  dsimp only at h
  split_ifs at h with hless hnodup hgreater
  · cases h
    exact Map.card_keys_foldl_insertNew hnodup
  · cases h
    exact le_antisymm (not_lt.mp hgreater) (not_lt.mp hless)

theorem finishLoad_card {E : Env} {container : List (PublicKey × KeyImage)} {needToResync : Bool}
    {w w' : Wallet2} (h : finishLoad E container needToResync w = .ok w') (hview : w.isViewOnly = true) :
    w'.pendingKeyImages.keys.card = container.length := by
  unfold finishLoad at h
  rw [if_pos hview] at h
  cases hk : loadKeys2ki container w with
  | none =>
    rw [hk] at h
    cases h
  | some r =>
    obtain ⟨w₁, resync⟩ := r
    have hcard := loadKeys2ki_card hk
    rw [hk] at h
    dsimp only at h
    -- a resync clears the wallet, but not these
    split_ifs at h <;> cases h <;> exact hcard

theorem finishLoad_resync {E : Env} {container : List (PublicKey × KeyImage)} {w w' : Wallet2}
    (h : finishLoad E container true w = .ok w') :
    w'.blockchain = [getBlockHash E generateGenesisBlock] := by
  unfold finishLoad at h
  split at h
  · cases h
  · rw [Bool.true_or, if_pos rfl] at h
    cases h
    rfl

/-- With as many pending key images as the file has, nothing is changed but the file container. -/
theorem finishLoad_of_card (E : Env) {container : List (PublicKey × KeyImage)} {w : Wallet2}
    (h : w.isViewOnly = true → w.pendingKeyImages.keys.card = container.length) :
    ∃ c, finishLoad E container false w = .ok { w with pendingKeyImagesFileContainer := c } := by
  unfold finishLoad
  by_cases hview : w.isViewOnly = true
  · have hcard := h hview
    have hkeys : loadKeys2ki container w =
        some ({ w with pendingKeyImagesFileContainer := container }, false) := by
      unfold loadKeys2ki
      dsimp only
      rw [if_neg hcard.not_lt, if_neg hcard.not_gt]
    rw [if_pos hview, hkeys]
    exact ⟨container, rfl⟩
  · rw [if_neg hview]
    exact ⟨w.pendingKeyImagesFileContainer, rfl⟩

/-- The containers that the file is there to keep. -/
structure SameStored (w w' : Wallet2) : Prop where
  blockchain : w'.blockchain = w.blockchain
  transfers : w'.transfers = w.transfers
  keyImages : w'.keyImages = w.keyImages
  unconfirmedTxs : w'.unconfirmedTxs = w.unconfirmedTxs
  payments : w'.payments.Perm w.payments
  txKeys : w'.txKeys = w.txKeys
  pendingKeyImages : w'.pendingKeyImages = w.pendingKeyImages
  transferHistory : w'.transferHistory = w.transferHistory

/-- In whatever order the containers iterate, `store` leaves the wallet as it is, and `load` with the
same keys gives it back in any object. -/
def SurvivesStore (E : Env) (w : Wallet2) : Prop :=
  ∀ o, w.Enumerates o → (store o w).2 = w ∧ ∀ broken w₀, ∃ w',
    load E w.account w.isViewOnly (some (store o w).1) w.pendingKeyImagesFileContainer broken w₀ =
      .ok w' ∧ SameStored w w'

theorem exists_enumerates (w : Wallet2) : ∃ o, w.Enumerates o := by
  obtain ⟨keyImages, hkeyImages⟩ := w.keyImages.exists_enumerates
  obtain ⟨unconfirmedTxs, hunconfirmedTxs⟩ := w.unconfirmedTxs.exists_enumerates
  obtain ⟨txKeys, htxKeys⟩ := w.txKeys.exists_enumerates
  obtain ⟨pendingKeyImages, hpending⟩ := w.pendingKeyImages.exists_enumerates
  exact ⟨⟨keyImages, unconfirmedTxs, w.payments, txKeys, pendingKeyImages⟩,
    hkeyImages, hunconfirmedTxs, List.Perm.refl _, htxKeys, hpending⟩

theorem load_store (E : Env) {w : Wallet2} {o : WalletOrder} (h : w.Enumerates o)
    (container : List (PublicKey × KeyImage)) (broken : Wallet2 → Wallet2) (w₀ : Wallet2) :
    load E w.account w.isViewOnly (some (store o w).1) container broken w₀ =
      finishLoad E container (decide (w.blockchain = []))
        (restored o (store o w).2 { w₀.clear E with account := w.account, isViewOnly := w.isViewOnly }) := by
  have hstored : (store o w).2.Enumerates o :=
    ⟨h.keyImages, h.unconfirmedTxs, h.payments, h.txKeys, h.pendingKeyImages⟩
  have hread := read_save hstored
    { w₀.clear E with account := w.account, isViewOnly := w.isViewOnly }
  have hfile : (store o w).1 = save o (store o w).2 := rfl
  unfold load
  rw [hfile]
  dsimp only
  rw [hread]
  -- the address was written from the account
  simp [restored, store]

theorem map_eq_self {α : Type} {f : α → α} {l : List α} : l.map f = l ↔ ∀ a ∈ l, f a = a := by
  have h : l.map f = l.map id ↔ ∀ a ∈ l, f a = id a := List.map_inj_left
  rwa [List.map_id] at h

theorem map_resetFee {l : List WalletTransferInfo} :
    l.map resetFee = l ↔ ∀ x ∈ l, x.fee = 0 := by
  rw [map_eq_self]
  refine forall₂_congr fun x _ => ⟨fun h => ?_, fun h => ?_⟩
  · exact (congrArg WalletTransferInfo.fee h).symm
  · rw [resetFee, ← h]

theorem map_unlockTime {l : List WalletTransferInfo} :
    (l.map fun x => { x with unlockTime := x.tx.unlockTime }) = l ↔
      ∀ x ∈ l, x.unlockTime = x.tx.unlockTime := by
  rw [map_eq_self]
  refine forall₂_congr fun x _ => ⟨fun h => ?_, fun h => ?_⟩
  · exact (congrArg WalletTransferInfo.unlockTime h).symm
  · rw [← h]

/-- A wallet survives storing and loading exactly when its address is the account's, it has a block, a
view-only one has as many pending key images as their file, and no entry of the history has a fee or
an unlock time other than its transaction's. -/
theorem survivesStore_iff (E : Env) (w : Wallet2) :
    SurvivesStore E w ↔
      w.accountPublicAddress = w.account.keys.accountAddress ∧ w.blockchain ≠ [] ∧
        (w.isViewOnly = true →
          w.pendingKeyImages.keys.card = w.pendingKeyImagesFileContainer.length) ∧
        ∀ x ∈ w.transferHistory, x.fee = 0 ∧ x.unlockTime = x.tx.unlockTime := by
  constructor
  · intro h
    obtain ⟨o, ho⟩ := w.exists_enumerates
    obtain ⟨hstore, hload⟩ := h o ho
    obtain ⟨w', hw', hsame⟩ := hload id w
    have haddress := congrArg accountPublicAddress hstore
    have hfee := map_resetFee.mp (congrArg transferHistory hstore)
    rw [load_store E ho, hstore] at hw'
    have hblocks : w.blockchain ≠ [] := by
      intro hnil
      rw [decide_eq_true hnil] at hw'
      have hgenesis := finishLoad_resync hw'
      rw [hsame.blockchain, hnil] at hgenesis
      cases hgenesis
    have hcard : w.isViewOnly = true →
        w.pendingKeyImages.keys.card = w.pendingKeyImagesFileContainer.length := by
      intro hview
      have hfile := finishLoad_card hw' hview
      rwa [hsame.pendingKeyImages] at hfile
    -- so the history that is loaded is the one that was read
    obtain ⟨c, hc⟩ := finishLoad_of_card E
      (w := restored o w { w.clear E with account := w.account, isViewOnly := w.isViewOnly }) hcard
    rw [decide_eq_false hblocks, hc] at hw'
    cases hw'
    have hunlock := map_unlockTime.mp hsame.transferHistory
    exact ⟨haddress.symm, hblocks, hcard, fun x hx => ⟨hfee x hx, hunlock x hx⟩⟩
  · rintro ⟨haddress, hblocks, hcard, hhistory⟩ o ho
    have hstore : (store o w).2 = w := by
      have hfee := map_resetFee.mpr fun x hx => (hhistory x hx).1
      show { w with
        accountPublicAddress := w.account.keys.accountAddress
        transferHistory := w.transferHistory.map resetFee } = w
      rw [hfee, ← haddress]
    refine ⟨hstore, fun broken w₀ => ?_⟩
    rw [load_store E ho, hstore, decide_eq_false hblocks]
    obtain ⟨c, hc⟩ := finishLoad_of_card E
      (w := restored o w { w₀.clear E with account := w.account, isViewOnly := w.isViewOnly }) hcard
    exact ⟨_, hc, rfl, rfl, rfl, rfl, ho.payments, rfl, rfl,
      map_unlockTime.mpr fun x hx => (hhistory x hx).2⟩

/-- A transaction that pays a fee of `1`. -/
def sampleFeeTx : Transaction := sampleTx 10 [sampleIn 10 5] [sampleOut 9 10]

/-- The sample wallet with its entry. -/
def sampleFeeWallet : Except Wallet2 Wallet2 :=
  handleMoneySpent2 sampleWalletEnv.toEnv generateGenesisBlock sampleFeeTx 1 ⟨[0], [0]⟩ [] []
    (sampleWallet false)

/-- Storing it clears the fee of the entry. -/
theorem fee_cleared : ∃ w, sampleFeeWallet = .ok w ∧
    w.transferHistory.map WalletTransferInfo.fee = [1] ∧
    (∀ o, (store o w).2.transferHistory.map WalletTransferInfo.fee = [0]) ∧
    ¬ SurvivesStore sampleWalletEnv.toEnv w := by
  have hfee : sampleFeeWallet.toOption.map
      (fun w => w.transferHistory.map WalletTransferInfo.fee) = some [1] := by decide +kernel
  obtain ⟨w, hw, hfee⟩ := Option.map_eq_some_iff.mp hfee
  have hcleared : ∀ o, (store o w).2.transferHistory.map WalletTransferInfo.fee = [0] := by
    intro o
    have hlen := congrArg List.length hfee
    rw [List.length_map] at hlen
    obtain ⟨x, hx⟩ := List.length_eq_one_iff.mp hlen
    show (w.transferHistory.map resetFee).map WalletTransferInfo.fee = [0]
    rw [hx]
    rfl
  refine ⟨w, toOption_eq_some.mp hw, hfee, hcleared, fun h => ?_⟩
  obtain ⟨o, ho⟩ := w.exists_enumerates
  have hsame := hcleared o
  rw [(h o ho).1, hfee] at hsame
  cases hsame

end Wallet2

end Boolberry
