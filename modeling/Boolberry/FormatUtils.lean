import Mathlib.Data.List.Sort
import Boolberry.Serialization

/-!
# Transaction and block helpers

The functions of `currency_format_utils.cpp` and `currency_basic_impl.cpp` that
the chain and the pool call on a single transaction or block.
-/

namespace Boolberry

/-- `get_transaction_hash`, the hash of the prefix; the same value as `get_transaction_prefix_hash`. -/
def getTransactionHash (E : Env) (tx : Transaction) : Hash :=
  E.cnFastHash (writeTransactionPrefix tx.toTransactionPrefix)

def hashPairs (E : Env) : List Hash → List Hash
  | a :: b :: l => E.cnFastHash (hashBytes a ++ hashBytes b) :: hashPairs E l
  | _ => []

/-- The `while (cnt > 2)` loop of `tree_hash`: one level of the tree for each halving of `cnt`. -/
def treeHashLevels (E : Env) : ℕ → ℕ → List Hash → List Hash
  | 0, _, ints => ints
  | n + 1, cnt, ints =>
      if 2 < cnt then treeHashLevels E n (cnt / 2) (hashPairs E (ints.take (cnt / 2 * 2))) else ints

/-- `tree_hash`; `cnt` is the largest power of two below `count`. -/
def treeHash (E : Env) (hashes : List Hash) : Hash :=
  match hashes with
  | [] => nullHash
  | [h] => h
  | [a, b] => E.cnFastHash (hashBytes a ++ hashBytes b)
  | _ =>
      let cnt := 2 ^ Nat.log2 (hashes.length - 1)
      let kept := 2 * cnt - hashes.length
      let ints := treeHashLevels E 64 cnt (hashes.take kept ++ hashPairs E (hashes.drop kept))
      E.cnFastHash ((ints.take 2).flatMap hashBytes)

def getTxTreeHash (E : Env) (b : Block) : Hash :=
  treeHash E (getTransactionHash E b.minerTx :: b.txHashes)

def getBlockHashingBlob (E : Env) (b : Block) : Blob :=
  writeBlockHeader b.toBlockHeader ++ hashBytes (getTxTreeHash E b) ++
    writeVarint (b.txHashes.length + 1)

/-- `get_block_hash`: the hashing blob is hashed as a serialised string, with its length in front. -/
def getBlockHash (E : Env) (b : Block) : Hash :=
  E.cnFastHash (writeBlob (getBlockHashingBlob E b))

def getBlockLonghash (E : Env) (b : Block) (height : ℕ) (accessor : UInt64 → Hash) : Hash :=
  E.getBlobLonghash (getBlockHashingBlob E b) height accessor

def isCoinbase (tx : Transaction) : Bool :=
  match tx.vin with
  | [.gen _] => true
  | _ => false

/-- `get_block_height`: the height the coinbase input claims, `0` for anything but a lone `txin_gen`. -/
def getBlockHeight (b : Block) : ℕ :=
  match b.minerTx.vin with
  | [.gen height] => height.toNat
  | _ => 0

def getVarintPackedSize (v : ℕ) : ℕ :=
  if v ≤ 127 then 1
  else if v ≤ 16383 then 2
  else if v ≤ 2097151 then 3
  else if v ≤ 268435455 then 4
  else if v ≤ 34359738367 then 5
  else if v ≤ 4398046511103 then 6
  else if v ≤ 562949953421311 then 7
  else 8

def getSignatureSize : Txin → ℕ
  | .toKey i => i.keyOffsets.length
  | _ => 0

/-- `get_object_blobsize(transaction)`: the signatures are counted from the inputs, not read. -/
def getObjectBlobsize (t : Transaction) : ℕ :=
  let prefixBlob := (writeTransactionPrefix t.toTransactionPrefix).length
  if isCoinbase t then prefixBlob
  else
    prefixBlob +
      (t.vin.map fun i => 64 * getSignatureSize i + getVarintPackedSize (getSignatureSize i)).sum +
      getVarintPackedSize t.vin.length

/-- The amounts of the inputs when all of them are `txin_to_key`. -/
def toKeyAmounts : List Txin → Option (List UInt64)
  | [] => some []
  | .toKey i :: l => (toKeyAmounts l).map (i.amount :: ·)
  | _ :: _ => none

/-- `get_inputs_money_amount`: 64-bit wrapping sum, refused at the first input of another kind. -/
def getInputsMoneyAmount (tx : Transaction) : Option UInt64 :=
  (toKeyAmounts tx.vin).map fun l => l.foldl (· + ·) 0

def getOutsMoneyAmount (tx : Transaction) : UInt64 :=
  (tx.vout.map TxOut.amount).foldl (· + ·) 0

/-- The loop shared by `check_inputs_overflow` and `check_outs_overflow`. -/
def checkOverflow : UInt64 → List UInt64 → Bool
  | _, [] => true
  | money, a :: l => if a + money < money then false else checkOverflow (money + a) l

def checkInputsOverflow (tx : Transaction) : Bool :=
  match toKeyAmounts tx.vin with
  | none => false
  | some l => checkOverflow 0 l

def checkOutsOverflow (tx : Transaction) : Bool := checkOverflow 0 (tx.vout.map TxOut.amount)

def checkMoneyOverflow (tx : Transaction) : Bool := checkInputsOverflow tx && checkOutsOverflow tx

/-- The input as a `txin_to_key`, if it is one. -/
def Txin.toKey? : Txin → Option TxinToKey
  | .toKey i => some i
  | _ => none

def checkInputsTypesSupported (tx : Transaction) : Bool := tx.vin.all fun i => i.toKey?.isSome

def checkOutsValid (E : Env) (tx : Transaction) : Bool :=
  tx.vout.all fun o => match o.target with
    | .toKey k => decide (0 < o.amount) && E.checkKey k.key
    | _ => false

/-- The `txin_to_key` inputs, in order. -/
def toKeyInputs (tx : Transaction) : List TxinToKey := tx.vin.filterMap Txin.toKey?

/-- The key images the transaction spends, in order. -/
def keyImages (tx : Transaction) : List KeyImage := (toKeyInputs tx).map TxinToKey.kImage

def relativeOutputOffsetsToAbsolute : List UInt64 → List UInt64
  | [] => []
  | o :: l => go o l
where
  go (acc : UInt64) : List UInt64 → List UInt64
    | [] => [acc]
    | o :: l => acc :: go (o + acc) l

/-- Byte `i` of a blob, `pastEnd` beyond its end. -/
def byteAt (E : Env) (extra : Blob) (i : ℕ) : UInt8 := extra.getD i (E.pastEnd extra i)

/-- The bytes `[i, i + n)` of a blob. -/
def bytesAt (E : Env) (extra : Blob) (i n : ℕ) : Blob :=
  (List.range n).map fun j => byteAt E extra (i + j)

/-- A fixed-size value from its little-endian bytes. -/
def podOfBytes (l : Blob) : ℕ := l.foldr (fun c acc => c.toNat + 256 * acc) 0

def podAt (E : Env) (extra : Blob) (i n : ℕ) : ℕ := podOfBytes (bytesAt E extra i n)

def nullAliasInfo : AliasInfo :=
  { address := ⟨nullPkey, nullPkey⟩, viewKey := nullSkey, sign := nullSig, textComment := [],
    aliasName := [] }

/-- `parse_tx_extra_alias_entry`: the alias and the entry's length. The comment
check admits one byte too many and the signature check asks for 32 bytes of 64,
so the reads can leave the blob. -/
def parseTxExtraAliasEntry (E : Env) (extra : Blob) (start : ℕ) : Option (AliasInfo × ℕ) :=
  if extra.length - 1 - start < 32 * 2 + 1 then none
  else
    let aliasFlags := byteAt E extra (start + 1)
    let nameLen := (byteAt E extra (start + 2)).toNat
    if extra.length - 1 - (start + 2) < nameLen + 32 * 2 then none
    else
      let aliasName := bytesAt E extra (start + 3) nameLen
      let i := start + 3 + nameLen
      let address : AccountPublicAddress :=
        ⟨BitVec.ofNat 256 (podAt E extra i 32), BitVec.ofNat 256 (podAt E extra (i + 32) 32)⟩
      let i := i + 64
      let track := aliasFlags &&& 0x02 != 0
      if track && decide (extra.length - i < 32) then none
      else
        let viewKey : SecretKey :=
          if track then BitVec.ofNat 256 (podAt E extra i 32) else nullSkey
        let i := if track then i + 32 else i
        let commentLen := (byteAt E extra i).toNat
        if commentLen ≠ 0 ∧ extra.length - i < commentLen then none
        else
          let textComment := bytesAt E extra (i + 1) commentLen
          -- an empty comment does not step over its own length byte
          let i := if commentLen = 0 then i else i + commentLen + 1
          let update := aliasFlags &&& 0x01 != 0
          -- `size() - i` wraps when the comment ran one byte over the end
          if update && decide (i ≤ extra.length ∧ extra.length - i < 32) then none
          else
            let sign : Signature :=
              if update then BitVec.ofNat 512 (podAt E extra i 64) else nullSig
            let i := if update then i + 64 else i
            some ({ address, viewKey, sign, textComment, aliasName }, i - start)

/-- The flags the scan of `parse_and_validate_tx_extra` carries. -/
structure ExtraScan where
  info : TxExtraInfo
  paddingStarted : Bool := false
  pubkeyFound : Bool := false
  userDataFound : Bool := false
  aliasFound : Bool := false

/-- The loop of `parse_and_validate_tx_extra` at offset `i`. Once `i` is past the
end it never meets the end again, and the call cannot return true. -/
def parseTxExtraGo (E : Env) (coinbase : Bool) (extra : Blob) :
    ℕ → ℕ → ExtraScan → Option TxExtraInfo
  | 0, _, _ => none
  | n + 1, i, st =>
      if i = extra.length then some st.info
      else if extra.length < i then none
      else
        let tag := byteAt E extra i
        if st.paddingStarted then
          if tag = 0 then parseTxExtraGo E coinbase extra n (i + 1) st else none
        else if tag = 0x01 then
          if extra.length - 1 - i < 32 ∨ st.pubkeyFound then none
          else
            let key := BitVec.ofNat 256 (podAt E extra (i + 1) 32)
            parseTxExtraGo E coinbase extra n (i + 33)
              { st with info := { st.info with txPubKey := key }, pubkeyFound := true }
        else if tag = 0x02 then
          if st.userDataFound ∨ extra.length - 1 - i < 1 then none
          else
            let len := (byteAt E extra (i + 1)).toNat
            if extra.length - 1 - (i + 1) < len then none
            else
              let data := if len = 0 then st.info.userDataBlob else bytesAt E extra (i + 2) len
              parseTxExtraGo E coinbase extra n (i + 2 + len)
                { st with info := { st.info with userDataBlob := data }, userDataFound := true }
        else if tag = 0x03 then
          if !coinbase ∨ st.aliasFound then none
          else
            match parseTxExtraAliasEntry E extra i with
            | none => none
            | some (ai, len) =>
                parseTxExtraGo E coinbase extra n (i + len)
                  { st with info := { st.info with aliasInfo := ai }, aliasFound := true }
        else if tag = 0 then parseTxExtraGo E coinbase extra n i { st with paddingStarted := true }
        else parseTxExtraGo E coinbase extra n (i + 1) st

/-- `parse_and_validate_tx_extra`. Every round but the one that starts the padding moves on. -/
def parseAndValidateTxExtra (E : Env) (tx : Transaction) : Option TxExtraInfo :=
  parseTxExtraGo E (isCoinbase tx) tx.extra (tx.extra.length + 2) 0
    { info := ⟨nullPkey, nullAliasInfo, []⟩ }

/-- `make_tx_extra_alias_entry(buff, ai, true)`: the bytes an alias update signs. -/
def aliasBuffToSign (ai : AliasInfo) : Blob :=
  let flags : UInt8 := if ai.viewKey = nullSkey then 0 else 0x02
  [0x03, flags, UInt8.ofNat ai.aliasName.length] ++ ai.aliasName ++
    hashBytes ai.address.spendPublicKey ++ hashBytes ai.address.viewPublicKey ++
    (if ai.viewKey = nullSkey then [] else hashBytes ai.viewKey) ++
    [UInt8.ofNat ai.textComment.length] ++ ai.textComment

/-- `misc_utils::median`: the middle of the sorted values, or the mean of the two
middle ones, in the arithmetic of the element type. -/
def median {α : Type} [LE α] [DecidableLE α] [Add α] [Div α] [∀ n, OfNat α n] (v : List α) : α :=
  let s := v.insertionSort (· ≤ ·)
  let n := s.length / 2
  if s.length % 2 = 1 then s.getD n 0 else (s.getD (n - 1) 0 + s.getD n 0) / 2

end Boolberry
