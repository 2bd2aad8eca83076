import Boolberry.Lib.Reader
import Boolberry.Core

/-!
# Reading transactions and blocks

The reading half of `binary_archive`. A field that comes up short makes the
stream bad, and the macros around every field stop there; so a reader either
fails or leaves the stream good. The one exception is a varint: it is read past
the stream object, and the return code of `read_varint` is not looked at. The
readers take the varint reader as an argument, so that the one of the source can
be compared with one that does look.
-/

namespace Boolberry
open Reading

def CURRENT_TRANSACTION_VERSION : UInt64 := 1

/-- The loop of `read_varint<bits>`: the return code, the value and the rest of the input. -/
def readVarintGo (bits : ℕ) : (shift i read : ℕ) → Blob → ℤ × ℕ × Blob
  | _, i, read, [] => (read, i, [])
  | shift, i, read, byte :: rest =>
      if bits ≤ shift + 7 ∧ 2 ^ (bits - shift) ≤ byte.toNat then (-1, i, rest)
      else if byte = 0 ∧ shift ≠ 0 then (-2, i, rest)
      else
        let i := i ||| ((byte &&& 0x7f).toNat <<< shift) % 2 ^ bits
        if byte &&& 0x80 = 0 then (read + 1, i, rest)
        else readVarintGo bits (shift + 7) i (read + 1) rest

def readVarint (bits : ℕ) (l : Blob) : ℤ × ℕ × Blob := readVarintGo bits 0 0 0 l

/-- A reader of varints of a given width. -/
abbrev VarintReader := ℕ → Reader UInt8 ℕ

/-- `serialize_uvarint`, which takes the value whatever `read_varint` answers. -/
def serializeUvarint : VarintReader := fun bits l =>
  let r := readVarint bits l
  some (r.2.1, r.2.2)

/-- The loop of a varint reader that fails when the varint is cut off, too wide or not minimal. -/
def checkedVarintGo (bits : ℕ) : (shift i : ℕ) → Blob → Option (ℕ × Blob)
  | _, _, [] => none
  | shift, i, byte :: rest =>
      if bits ≤ shift + 7 ∧ 2 ^ (bits - shift) ≤ byte.toNat then none
      else if byte = 0 ∧ shift ≠ 0 then none
      else
        let i := i ||| ((byte &&& 0x7f).toNat <<< shift) % 2 ^ bits
        if byte &&& 0x80 = 0 then some (i, rest) else checkedVarintGo bits (shift + 7) i rest

def checkedVarint : VarintReader := fun bits l => checkedVarintGo bits 0 0 l

/-- The value of little-endian bytes. -/
def podValue : Blob → ℕ
  | [] => 0
  | c :: l => c.toNat + 256 * podValue l

/-- `serialize_blob` and `serialize_uint` of `n` bytes. -/
def readPod (n : ℕ) : Reader UInt8 ℕ := fun l =>
  if l.length < n then none else some (podValue (l.take n), l.drop n)

def readHash : Reader UInt8 Hash := do
  let v ← readPod 32
  return BitVec.ofNat 256 v

def readSignature : Reader UInt8 Signature := do
  let v ← readPod 64
  return BitVec.ofNat 512 v

def readUint8 : Reader UInt8 UInt8 := Reader.token

/-- `remaining_bytes`, with the test on the number of elements of a vector. -/
def checkRemaining (cnt : ℕ) : Reader UInt8 Unit := fun l =>
  if l.length < cnt then none else some ((), l)

section Fields

variable (rv : VarintReader)

def readVarint64 : Reader UInt8 UInt64 := do
  let v ← rv 64
  return UInt64.ofNat v

/-- `do_serialize` of a vector. -/
def readVector {α : Type} (r : Reader UInt8 α) : Reader UInt8 (List α) := do
  let cnt ← rv 64
  checkRemaining cnt
  r.times cnt

def readBlob : Reader UInt8 Blob := readVector rv readUint8

def readTxoutToScript : Reader UInt8 TxoutToScript := do
  let keys ← readVector rv readHash
  let script ← readBlob rv
  return ⟨keys, script⟩

/-- `variant_reader` for `txout_target_v`. -/
def readTxoutTarget : Reader UInt8 TxoutTarget := do
  let t ← readUint8
  if t = 0x0 then
    let out ← readTxoutToScript rv
    return .toScript out
  else if t = 0x1 then
    let h ← readHash
    return .toScripthash h
  else if t = 0x2 then
    let key ← readHash
    let mixAttr ← readUint8
    return .toKey ⟨key, mixAttr⟩
  else Reader.fail

def readTxOut : Reader UInt8 TxOut := do
  let amount ← readVarint64 rv
  let target ← readTxoutTarget rv
  return ⟨amount, target⟩

def readTxinToScript : Reader UInt8 Txin := do
  let prev ← readHash
  let prevout ← readVarint64 rv
  let sigset ← readBlob rv
  return .toScript prev prevout sigset

def readTxinToScripthash : Reader UInt8 Txin := do
  let prev ← readHash
  let prevout ← readVarint64 rv
  let script ← readTxoutToScript rv
  let sigset ← readBlob rv
  return .toScripthash prev prevout script sigset

def readTxinToKey : Reader UInt8 Txin := do
  let amount ← readVarint64 rv
  let keyOffsets ← readVector rv (readVarint64 rv)
  let kImage ← readHash
  return .toKey ⟨amount, keyOffsets, kImage⟩

/-- `variant_reader` for `txin_v`. -/
def readTxin : Reader UInt8 Txin := do
  let t ← readUint8
  if t = 0xff then
    let height ← readVarint64 rv
    return .gen height
  else if t = 0x0 then readTxinToScript rv
  else if t = 0x1 then readTxinToScripthash rv
  else if t = 0x2 then readTxinToKey rv
  else Reader.fail

def readTransactionPrefix : Reader UInt8 TransactionPrefix := do
  let version ← readVarint64 rv
  if CURRENT_TRANSACTION_VERSION < version then Reader.fail
  else
    let unlockTime ← readVarint64 rv
    let vin ← readVector rv (readTxin rv)
    let vout ← readVector rv (readTxOut rv)
    let extra ← readBlob rv
    return ⟨version, unlockTime, vin, vout, extra⟩

def readTransaction : Reader UInt8 Transaction := do
  let txPrefix ← readTransactionPrefix rv
  let signatures ← readVector rv (readVector rv readSignature)
  return ⟨txPrefix, signatures⟩

def readBlockHeader : Reader UInt8 BlockHeader := do
  let majorVersion ← readUint8
  if CURRENT_BLOCK_MAJOR_VERSION < majorVersion then Reader.fail
  else
    let nonce ← readPod 8
    let prevId ← readHash
    let minorVersion ← rv 8
    let timestamp ← readVarint64 rv
    let flags ← readUint8
    return ⟨majorVersion, UInt8.ofNat minorVersion, timestamp, prevId, UInt64.ofNat nonce, flags⟩

def readBlock : Reader UInt8 Block := do
  let header ← readBlockHeader rv
  let minerTx ← readTransaction rv
  let txHashes ← readVector rv readHash
  return ⟨header, minerTx, txHashes⟩

end Fields

/-- `parse_and_validate_tx_from_blob`; `check_stream_state` wants the end of the input. -/
def parseAndValidateTxFromBlob (txBlob : Blob) : Option Transaction :=
  (readTransaction serializeUvarint).all txBlob

def parseAndValidateBlockFromBlob (bBlob : Blob) : Option Block :=
  (readBlock serializeUvarint).all bBlob

def writeTransaction (t : Transaction) : Blob :=
  writeTransactionPrefix t.toTransactionPrefix ++
    writeVector (writeVector fun s => podBytes 64 s.toNat) t.signatures

def writeBlock (b : Block) : Blob :=
  writeBlockHeader b.toBlockHeader ++ writeTransaction b.minerTx ++ writeVector hashBytes b.txHashes

/-- `tx_to_blob`; `none` when the archive answers `false`. -/
def txToBlob (t : Transaction) : Option Blob :=
  if CURRENT_TRANSACTION_VERSION < t.version then none else some (writeTransaction t)

def blockToBlob (b : Block) : Option Blob :=
  if CURRENT_BLOCK_MAJOR_VERSION < b.majorVersion then none
  else if CURRENT_TRANSACTION_VERSION < b.minerTx.version then none
  else some (writeBlock b)

end Boolberry
