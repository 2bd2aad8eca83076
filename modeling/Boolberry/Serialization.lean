import Boolberry.Basic

/-!
# Binary serialisation

The writing half of `binary_archive`: the bytes that transaction ids, block ids
and blob sizes are computed from.
-/

namespace Boolberry

/-- `write_varint` of a 64-bit value; ten groups of seven bits are enough. -/
def writeVarintGo : ℕ → ℕ → Blob
  | 0, _ => []
  | n + 1, i => if 0x80 ≤ i then UInt8.ofNat (i % 0x80 + 0x80) :: writeVarintGo n (i / 0x80)
      else [UInt8.ofNat i]

def writeVarint (i : ℕ) : Blob := writeVarintGo 10 i

/-- The `n` little-endian bytes of a fixed-size value. -/
def podBytes (n : ℕ) (v : ℕ) : Blob :=
  (List.range n).map fun i => UInt8.ofNat (v / 256 ^ i % 256)

def hashBytes (h : Hash) : Blob := podBytes 32 h.toNat

/-- `do_serialize` of a vector: the count, then the elements. -/
def writeVector {α : Type} (f : α → Blob) (l : List α) : Blob :=
  writeVarint l.length ++ l.flatMap f

def writeBlob (b : Blob) : Blob := writeVector (fun c => [c]) b

def writeTxoutToScript (o : TxoutToScript) : Blob :=
  writeVector hashBytes o.keys ++ writeBlob o.script

def writeTxoutTarget : TxoutTarget → Blob
  | .toScript o => 0x0 :: writeTxoutToScript o
  | .toScripthash h => 0x1 :: hashBytes h
  | .toKey o => 0x2 :: (hashBytes o.key ++ [o.mixAttr])

def writeTxOut (o : TxOut) : Blob := writeVarint o.amount.toNat ++ writeTxoutTarget o.target

def writeTxin : Txin → Blob
  | .gen height => 0xff :: writeVarint height.toNat
  | .toScript prev prevout sigset =>
      0x0 :: (hashBytes prev ++ writeVarint prevout.toNat ++ writeBlob sigset)
  | .toScripthash prev prevout script sigset =>
      0x1 :: (hashBytes prev ++ writeVarint prevout.toNat ++ writeTxoutToScript script ++
        writeBlob sigset)
  | .toKey i =>
      0x2 :: (writeVarint i.amount.toNat ++ writeVector (fun o => writeVarint o.toNat) i.keyOffsets ++
        hashBytes i.kImage)

def writeTransactionPrefix (t : TransactionPrefix) : Blob :=
  writeVarint t.version.toNat ++ writeVarint t.unlockTime.toNat ++ writeVector writeTxin t.vin ++
    writeVector writeTxOut t.vout ++ writeBlob t.extra

def writeBlockHeader (b : BlockHeader) : Blob :=
  [b.majorVersion] ++ podBytes 8 b.nonce.toNat ++ hashBytes b.prevId ++
    writeVarint b.minorVersion.toNat ++ writeVarint b.timestamp.toNat ++ [b.flags]

end Boolberry
