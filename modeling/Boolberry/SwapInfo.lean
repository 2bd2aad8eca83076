import Boolberry.Addresses
import Boolberry.Chacha8
import Boolberry.RingSignatures
import Boolberry.UserData

/-!
# Swap addresses in transactions

A transaction that pays to a swap address tells it in its user data, encrypted for the holder of
one fixed key: the sender's key is the derivation from that key and the transaction's secret key,
the reader's the one from the transaction's public key and the fixed secret key.
-/

namespace Boolberry

open CryptoOps Chacha8

section SwapInfo

variable {G : Type} [AddCommGroup G] (E : Env) (C : CryptoOps G)

/-- `encrypt_user_data_with_tx_secret_key` of a buffer; `swapPub` is `SWAP_ADDRESS_ENCRYPTION_PUB_KEY`
and `tmp` what the cipher's buffer held. -/
def encryptUserDataBuff (tmp : Vector UInt8 64) (swapPub : PublicKey) (sk : SecretKey) (data : Blob) : Blob :=
  match C.generateKeyDerivation swapPub sk with
  | none => data
  | some derivation => doChachaCrypt E tmp data (hashBytes derivation)

/-- The loop of `encrypt_user_data_with_tx_secret_key` over an extra, at most `n` rounds. A failed
check leaves the extra as it is. -/
def encryptExtraGo (crypt : Blob → Blob) (extra : Blob) : ℕ → ℕ → Bool → Blob
  | 0, _, _ => extra
  | n + 1, i, paddingStarted =>
      let tag := extra.getD i 0
      if extra.length ≤ i then extra
      else if paddingStarted then
        if tag ≠ 0 then extra else encryptExtraGo crypt extra n (i + 1) paddingStarted
      else if tag = 1 then
        if extra.length - 1 - i < 32 then extra else encryptExtraGo crypt extra n (i + 33) paddingStarted
      else if tag = TX_EXTRA_TAG_USER_DATA then
        let size := (extra.getD (i + 1) 0).toNat
        if extra.length - 1 - i < 1 then extra
        else if extra.length - 1 - (i + 1) < size then extra
        else if 0 < size then
          match encryptUserDataWalk size ((extra.drop (i + 2)).take size) with
          | .found pos =>
              extra.take (i + 2 + pos) ++
                crypt ((extra.drop (i + 2 + pos)).take SWAP_ADDRESS_EXTRA_ENTRY_SIZE) ++
                extra.drop (i + 2 + pos + SWAP_ADDRESS_EXTRA_ENTRY_SIZE)
          | .noEntry => encryptExtraGo crypt extra n (i + 2 + size) paddingStarted
          | _ => extra
        else encryptExtraGo crypt extra n (i + 2) paddingStarted
      else if tag = 0 then encryptExtraGo crypt extra n i true
      else extra

/-- `encrypt_user_data_with_tx_secret_key`. Every round but the one that starts the padding moves
on. -/
def encryptUserDataWithTxSecretKey (tmp : Vector UInt8 64) (swapPub : PublicKey) (sk : SecretKey)
    (extra : Blob) : Blob :=
  encryptExtraGo (encryptUserDataBuff E C tmp swapPub sk) extra (extra.length + 2) 0 false

/-- `get_swapinfo_encrypted_buff_from_user_data`. A loop that has not ended after as many rounds as
there are bytes does not end. -/
def swapinfoBuff (userData : Blob) : Option Blob :=
  (getSwapinfoEncryptedBuffFromUserData (userData.length + 1) userData).encryptedBuff userData

/-- `is_swap_tx` of a transaction without outputs. -/
def isSwapTx (tx : Transaction) (destinations : List TxDestinationEntry) : Bool :=
  destinations.any (fun d => d.addr.isSwapAddress) &&
    match parseAndValidateTxExtra E tx with
    | none => false
    | some tei => tei.userDataBlob ≠ [] && (swapinfoBuff tei.userDataBlob).isSome

/-- The members of a `swap_address_extra_entry`. -/
def readSwapAddressExtraEntry (buff : Blob) : AccountPublicAddress × UInt32 :=
  (⟨BitVec.ofNat 256 (podOfBytes (buff.take 32)), BitVec.ofNat 256 (podOfBytes ((buff.drop 32).take 32))⟩,
    UInt32.ofNat (podOfBytes ((buff.drop 64).take 4)))

def isChecksumValid (entry : AccountPublicAddress × UInt32) : Bool :=
  entry.2 == (cnFastHash64 E (hashBytes entry.1.spendPublicKey ++ hashBytes entry.1.viewPublicKey)).toUInt32

def getSwapInfoFromTxExtra (tmp : Vector UInt8 64) (tx : Transaction) (sk : SecretKey) :
    Option DestinationAddress := do
  let tei ← parseAndValidateTxExtra E tx
  guard (tei.userDataBlob ≠ [])
  let buff ← swapinfoBuff tei.userDataBlob
  guard (buff.length = SWAP_ADDRESS_EXTRA_ENTRY_SIZE)
  let derivation ← C.generateKeyDerivation tei.txPubKey sk
  let buff := doChachaCrypt E tmp buff (hashBytes derivation)
  guard (buff.length = SWAP_ADDRESS_EXTRA_ENTRY_SIZE)
  let saee := readSwapAddressExtraEntry buff
  guard (isChecksumValid E saee)
  return { toAccountPublicAddress := saee.1, isSwapAddress := true }

theorem getSwapInfo_of_read {tmp : Vector UInt8 64} {buff plain : Blob} {tx : Transaction} {sk : SecretKey}
    {tei : TxExtraInfo} {derivation : KeyDerivation} (hparse : parseAndValidateTxExtra E tx = some tei)
    (hdata : tei.userDataBlob ≠ []) (hbuff : swapinfoBuff tei.userDataBlob = some buff)
    (hlen : buff.length = SWAP_ADDRESS_EXTRA_ENTRY_SIZE)
    (hderivation : C.generateKeyDerivation tei.txPubKey sk = some derivation)
    (hplain : doChachaCrypt E tmp buff (hashBytes derivation) = plain)
    (hlen' : plain.length = SWAP_ADDRESS_EXTRA_ENTRY_SIZE)
    (hvalid : isChecksumValid E (readSwapAddressExtraEntry plain) = true) :
    getSwapInfoFromTxExtra E C tmp tx sk =
      some { toAccountPublicAddress := (readSwapAddressExtraEntry plain).1, isSwapAddress := true } := by
  unfold getSwapInfoFromTxExtra
  simp only [hparse, hdata, hbuff, hlen, hderivation, hplain, hlen', hvalid, ne_eq, not_false_eq_true,
    guard_true, Option.bind_eq_bind, Option.bind_some, Option.pure_def]

theorem getSwapInfo_of_none {tmp : Vector UInt8 64} {tx : Transaction} {sk : SecretKey}
    {tei : TxExtraInfo} (hparse : parseAndValidateTxExtra E tx = some tei)
    (hnone : swapinfoBuff tei.userDataBlob = none) : getSwapInfoFromTxExtra E C tmp tx sk = none := by
  unfold getSwapInfoFromTxExtra
  simp only [hparse, hnone, Option.bind_eq_bind, Option.bind_some, Option.bind_none]
  by_cases hdata : tei.userDataBlob = [] <;> simp [hdata]

end SwapInfo

section Layout

variable {paymentId x : Blob}

/-- User data with a payment id and 68 bytes of swap information. -/
def swapUserData (paymentId x : Blob) : Blob :=
  (getPaymentIdUserdataEntry paymentId).getD [] ++
    TX_USER_DATA_TAG_SWAP_ADDRESS :: UInt8.ofNat SWAP_ADDRESS_EXTRA_ENTRY_SIZE :: x

theorem userDataOf_swap (E : Env) (paymentId : Blob) {acc : DestinationAddress}
    (hswap : acc.isSwapAddress = true) : userDataOf E paymentId acc =
      swapUserData paymentId (swapAddressExtraEntry E acc.toAccountPublicAddress) := by
  unfold userDataOf swapUserData getSwapinfoUserdataEntry
  rw [if_pos hswap]

/-- Where the swap information starts. -/
def swapStart (paymentId : Blob) : ℕ := ((getPaymentIdUserdataEntry paymentId).getD []).length + 2

theorem swapUserData_ne_nil (paymentId x : Blob) : swapUserData paymentId x ≠ [] := by
  simp [swapUserData]

theorem swapUserData_length (paymentId x : Blob) :
    (swapUserData paymentId x).length = swapStart paymentId + x.length := by
  simp only [swapUserData, swapStart, List.length_append, List.length_cons]
  omega

theorem swapUserData_take (paymentId x y : Blob) :
    (swapUserData paymentId x).take (swapStart paymentId) ++ y = swapUserData paymentId y := by
  have hsplit (z : Blob) : swapUserData paymentId z = ((getPaymentIdUserdataEntry paymentId).getD [] ++
      [TX_USER_DATA_TAG_SWAP_ADDRESS, UInt8.ofNat SWAP_ADDRESS_EXTRA_ENTRY_SIZE]) ++ z := by
    simp [swapUserData]
  have hlen : ((getPaymentIdUserdataEntry paymentId).getD [] ++
      [TX_USER_DATA_TAG_SWAP_ADDRESS, UInt8.ofNat SWAP_ADDRESS_EXTRA_ENTRY_SIZE]).length =
        swapStart paymentId := by
    simp [swapStart]
  rw [hsplit x, hsplit y, List.take_left' hlen]

theorem swapUserData_drop (paymentId x : Blob) :
    (swapUserData paymentId x).drop (swapStart paymentId) = x := by
  have h := swapUserData_take paymentId x x
  conv_rhs at h => rw [← List.take_append_drop (swapStart paymentId) (swapUserData paymentId x)]
  exact (List.append_cancel_left h).symm

theorem paymentIdEntry_eq (hnil : paymentId ≠ []) (hshort : paymentId.length < 128) :
    (getPaymentIdUserdataEntry paymentId).getD [] =
      TX_USER_DATA_TAG_PAYMENT_ID :: UInt8.ofNat paymentId.length :: paymentId := by
  have hlen : paymentId.length ≠ 0 := by simpa using hnil
  have hmax : ¬ TX_MAX_PAYMENT_ID_SIZE ≤ paymentId.length := by
    unfold TX_MAX_PAYMENT_ID_SIZE TX_EXTRA_MAX_USER_DATA_SIZE
    omega
  unfold getPaymentIdUserdataEntry
  rw [if_neg hlen, if_neg hmax, Option.getD_some]

/-- Both loops find the swap information in two rounds. -/
theorem walk_swapUserData {size : UInt8 → ℕ} (hsize : SizeOfByte size)
    (hshort : paymentId.length < 128) (hx : x.length = 68) (n : ℕ) :
    walkUserData size (swapUserData paymentId x) (n + 2) 0 = .found (swapStart paymentId) := by
  obtain ⟨hentry, -⟩ := @swapEntryAt_of_eq (swapUserData paymentId x) _ x rfl hx
  have hroom := hentry.2.2
  by_cases hnil : paymentId = []
  · subst hnil
    rw [walk_round hsize (by omega)]
    have h0 : SwapEntryAt (swapUserData [] x) 0 := hentry
    rw [if_neg (not_not.mpr h0.1), if_pos h0]
    rfl
  · have hfront := paymentIdEntry_eq hnil hshort
    have hlen : 0 + 1 < (swapUserData paymentId x).length := by omega
    have htag : (swapUserData paymentId x).getD 0 0 = TX_USER_DATA_TAG_PAYMENT_ID := by
      unfold swapUserData
      rw [hfront]
      rfl
    have hbyte : (swapUserData paymentId x).getD (0 + 1) 0 = UInt8.ofNat paymentId.length := by
      unfold swapUserData
      rw [hfront]
      rfl
    have hnat := ExtraReader.toNat_length (show paymentId.length ≤ 255 by omega)
    have hsmall : UInt8.ofNat paymentId.length < 128 := by
      rw [UInt8.lt_iff_toNat_lt, hnat]
      exact hshort
    have hlenfront : ((getPaymentIdUserdataEntry paymentId).getD []).length = paymentId.length + 2 := by
      rw [hfront]
      rfl
    have hnext : nextEntry size (swapUserData paymentId x) 0 =
        ((getPaymentIdUserdataEntry paymentId).getD []).length := by
      unfold nextEntry
      rw [hbyte, hsize.small _ hsmall, hnat, hlenfront, Nat.mod_eq_of_lt (by omega)]
      omega
    rw [walk_round hsize hlen, if_pos (by rw [htag]; decide), hnext, walk_round hsize (by omega),
      if_neg (not_not.mpr hentry.1), if_pos hentry]
    rfl

theorem swapinfoBuff_swapUserData (hshort : paymentId.length < 128) (hx : x.length = 68) :
    swapinfoBuff (swapUserData paymentId x) = some x := by
  have hlen := swapUserData_length paymentId x
  have hstart : 2 ≤ swapStart paymentId := by unfold swapStart; omega
  obtain ⟨n, hn⟩ : ∃ n, (swapUserData paymentId x).length + 1 = n + 2 :=
    ⟨(swapUserData paymentId x).length - 1, by omega⟩
  unfold swapinfoBuff getSwapinfoEncryptedBuffFromUserData
  rw [if_neg (swapUserData_ne_nil paymentId x), hn, walk_swapUserData sizeOfByte_char hshort hx]
  show some (((swapUserData paymentId x).drop (swapStart paymentId)).take 68) = some x
  rw [swapUserData_drop, List.take_of_length_le (by omega)]

theorem encryptExtraGo_userData (crypt : Blob → Blob) (hshort : paymentId.length < 128)
    (hx : x.length = 68) (hcrypt : (crypt x).length = 68)
    (hsize : (swapUserData paymentId x).length ≤ 255) (n : ℕ) :
    encryptExtraGo crypt (ExtraEntry.userData (swapUserData paymentId x)).bytes (n + 1) 0 false =
      (ExtraEntry.userData (swapUserData paymentId (crypt x))).bytes := by
  have hlen := swapUserData_length paymentId x
  have hlen' := swapUserData_length paymentId (crypt x)
  have hstart : 2 ≤ swapStart paymentId := by unfold swapStart; omega
  generalize hdata : swapUserData paymentId x = data at *
  have hnat := ExtraReader.toNat_length hsize
  have hbytes : (ExtraEntry.userData data).bytes = [0x02, UInt8.ofNat data.length] ++ data := rfl
  obtain ⟨m, hm⟩ : ∃ m, data.length = m + 2 := ⟨data.length - 2, by omega⟩
  have hwalk : encryptUserDataWalk data.length data = .found (swapStart paymentId) := by
    unfold encryptUserDataWalk
    rw [hm, ← hdata]
    exact walk_swapUserData sizeOfByte_toNat hshort hx m
  have hdrop2 : (ExtraEntry.userData data).bytes.drop 2 = data := rfl
  have hinner : ((ExtraEntry.userData data).bytes.drop 2).take data.length = data := by
    rw [hdrop2, List.take_length]
  have htag : (ExtraEntry.userData data).bytes.getD 0 0 = TX_EXTRA_TAG_USER_DATA := rfl
  have hsizebyte : ((ExtraEntry.userData data).bytes.getD (0 + 1) 0).toNat = data.length := hnat
  have hbyteslen : (ExtraEntry.userData data).bytes.length = data.length + 2 := rfl
  rw [encryptExtraGo]
  simp only [htag, hsizebyte, hbyteslen]
  rw [if_neg (by omega), if_neg (by decide), if_neg (by decide), if_pos trivial, if_neg (by omega),
    if_neg (by omega), if_pos (by omega), hinner, hwalk]
  simp only
  have hsame : data.length = (swapUserData paymentId (crypt x)).length := by omega
  have htake : (ExtraEntry.userData data).bytes.take (0 + 2 + swapStart paymentId) =
      [0x02, UInt8.ofNat data.length] ++ data.take (swapStart paymentId) := by
    rw [hbytes, Nat.zero_add, List.take_append, List.take_of_length_le (by simp)]
    simp
  have hdrop : (ExtraEntry.userData data).bytes.drop (0 + 2 + swapStart paymentId) = x := by
    rw [Nat.zero_add, ← List.drop_drop, hdrop2, ← hdata, swapUserData_drop]
  have hrest : (ExtraEntry.userData data).bytes.drop
      (0 + 2 + swapStart paymentId + SWAP_ADDRESS_EXTRA_ENTRY_SIZE) = [] := by
    apply List.drop_eq_nil_of_le
    rw [hbyteslen]
    unfold SWAP_ADDRESS_EXTRA_ENTRY_SIZE
    omega
  have hfull : x.take SWAP_ADDRESS_EXTRA_ENTRY_SIZE = x := by
    apply List.take_of_length_le
    unfold SWAP_ADDRESS_EXTRA_ENTRY_SIZE
    omega
  rw [htake, hdrop, hrest, hfull, List.append_nil, List.append_assoc, ← hdata, swapUserData_take, hdata,
    hsame]
  rfl

theorem podOfBytes_checksum (v : UInt32) : UInt32.ofNat (podOfBytes (podBytes 4 v.toNat)) = v := by
  have hlt : v.toNat < 256 ^ 4 := v.toNat_lt
  rw [ExtraReader.podOfBytes_eq, podValue_podBytes hlt, UInt32.ofNat_toNat]

theorem readSwapAddressExtraEntry_entry (E : Env) (addr : AccountPublicAddress) :
    (readSwapAddressExtraEntry (swapAddressExtraEntry E addr)).1 = addr ∧
      isChecksumValid E (readSwapAddressExtraEntry (swapAddressExtraEntry E addr)) = true := by
  have hbytes (h : Hash) : (hashBytes h).length = 32 := length_podBytes 32 _
  have hread : readSwapAddressExtraEntry (swapAddressExtraEntry E addr) = (addr,
      (cnFastHash64 E (hashBytes addr.spendPublicKey ++ hashBytes addr.viewPublicKey)).toUInt32) := by
    unfold readSwapAddressExtraEntry swapAddressExtraEntry
    have h64 : (hashBytes addr.spendPublicKey ++ hashBytes addr.viewPublicKey).length = 64 := by
      rw [List.length_append, hbytes, hbytes]
    simp only
    have htake (v : ℕ) : (podBytes 4 v).take 4 = podBytes 4 v :=
      List.take_of_length_le (length_podBytes 4 v).le
    rw [List.drop_left' h64, htake, podOfBytes_checksum, List.append_assoc, List.take_left' (hbytes _), List.drop_left' (hbytes _),
      List.take_left' (hbytes _), ExtraReader.podOfBytes_hashBytes, ExtraReader.podOfBytes_hashBytes]
  rw [hread]
  exact ⟨rfl, beq_self_eq_true _⟩

end Layout
end Boolberry
