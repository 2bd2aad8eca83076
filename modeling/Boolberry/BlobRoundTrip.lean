import Boolberry.ArchiveRoundTrip

/-!
# Blobs of transactions and blocks

The round trip of the two formats, and which blobs come back as they were when
the parsed object is written again.
-/

namespace Boolberry
open Reading Reader

def TxoutToScript.Fits (o : TxoutToScript) : Prop :=
  o.keys.length < 2 ^ 64 ∧ o.script.length < 2 ^ 64

def TxoutTarget.Fits : TxoutTarget → Prop
  | .toScript o => o.Fits
  | .toScripthash _ => True
  | .toKey _ => True

def TxOut.Fits (o : TxOut) : Prop := o.target.Fits

def Txin.Fits : Txin → Prop
  | .gen _ => True
  | .toScript _ _ sigset => sigset.length < 2 ^ 64
  | .toScripthash _ _ script sigset => script.Fits ∧ sigset.length < 2 ^ 64
  | .toKey i => i.keyOffsets.length < 2 ^ 64

structure TransactionPrefix.Fits (t : TransactionPrefix) : Prop where
  vin : VectorFits Txin.Fits t.vin
  vout : VectorFits TxOut.Fits t.vout
  extra : t.extra.length < 2 ^ 64

structure Transaction.Fits (t : Transaction) : Prop where
  txPrefix : t.toTransactionPrefix.Fits
  signatures : VectorFits (fun l : List Signature => l.length < 2 ^ 64) t.signatures

structure Block.Fits (b : Block) : Prop where
  minerTx : b.minerTx.Fits
  txHashes : b.txHashes.length < 2 ^ 64

theorem VectorFits.of_length {α : Type} {l : List α} (h : l.length < 2 ^ 64) :
    VectorFits (fun _ => True) l := ⟨h, fun _ _ => trivial⟩

section Inverts

theorem inverts_readBlob :
    Inverts (readBlob checkedVarint) writeBlob (fun b : Blob => b.length < 2 ^ 64) :=
  fun b hb => inverts_readVector inverts_readUint8 (by simp) b (VectorFits.of_length hb)

theorem hashBytes_ne_nil (h : Hash) : hashBytes h ≠ [] :=
  List.ne_nil_of_length_pos (by simp [hashBytes])

theorem inverts_readHashes :
    Inverts (readVector checkedVarint readHash) (writeVector hashBytes)
      (fun l : List Hash => l.length < 2 ^ 64) :=
  fun l hl => inverts_readVector inverts_readHash hashBytes_ne_nil l (VectorFits.of_length hl)

theorem inverts_readTxoutToScript :
    Inverts (readTxoutToScript checkedVarint) writeTxoutToScript TxoutToScript.Fits := by
  rintro o ⟨hkeys, hscript⟩ rest
  rw [readTxoutToScript, writeTxoutToScript, List.append_assoc,
    bind_of_eq (inverts_readHashes _ hkeys _), bind_of_eq (inverts_readBlob _ hscript _)]
  rfl

theorem inverts_readTxoutTarget :
    Inverts (readTxoutTarget checkedVarint) writeTxoutTarget TxoutTarget.Fits := by
  intro o ho rest
  unfold readTxoutTarget
  cases o with
  | toScript out =>
    rw [writeTxoutTarget, List.cons_append, bind_of_eq (readUint8_cons _ _), if_pos rfl,
      bind_of_eq (inverts_readTxoutToScript out ho rest)]
    rfl
  | toScripthash hash =>
    rw [writeTxoutTarget, List.cons_append, bind_of_eq (readUint8_cons _ _),
      if_neg (by decide), if_pos rfl, bind_of_eq (inverts_readHash _ trivial rest)]
    rfl
  | toKey out =>
    rw [writeTxoutTarget, List.cons_append, bind_of_eq (readUint8_cons _ _),
      if_neg (by decide), if_neg (by decide), if_pos rfl, List.append_assoc,
      bind_of_eq (inverts_readHash _ trivial _), List.cons_append, List.nil_append,
      bind_of_eq (readUint8_cons _ rest)]
    rfl

theorem inverts_readTxOut : Inverts (readTxOut checkedVarint) writeTxOut TxOut.Fits := by
  intro o ho rest
  rw [readTxOut, writeTxOut, List.append_assoc, bind_of_eq (readVarint64_write _ _),
    bind_of_eq (inverts_readTxoutTarget _ ho rest)]
  rfl

theorem inverts_readTxin : Inverts (readTxin checkedVarint) writeTxin Txin.Fits := by
  intro i hi rest
  unfold readTxin
  cases i with
  | gen height =>
    rw [writeTxin, List.cons_append, bind_of_eq (readUint8_cons _ _), if_pos rfl,
      bind_of_eq (readVarint64_write _ rest)]
    rfl
  | toScript prev prevout sigset =>
    rw [writeTxin, List.cons_append, bind_of_eq (readUint8_cons _ _),
      if_neg (by decide), if_pos rfl, readTxinToScript, List.append_assoc, List.append_assoc,
      bind_of_eq (inverts_readHash _ trivial _), bind_of_eq (readVarint64_write _ _),
      bind_of_eq (inverts_readBlob _ hi rest)]
    rfl
  | toScripthash prev prevout script sigset =>
    rw [writeTxin, List.cons_append, bind_of_eq (readUint8_cons _ _),
      if_neg (by decide), if_neg (by decide), if_pos rfl, readTxinToScripthash, List.append_assoc,
      List.append_assoc, List.append_assoc, bind_of_eq (inverts_readHash _ trivial _),
      bind_of_eq (readVarint64_write _ _),
      bind_of_eq (inverts_readTxoutToScript _ hi.1 _), bind_of_eq (inverts_readBlob _ hi.2 rest)]
    rfl
  | toKey i =>
    have hoffs := inverts_readVector inverts_readVarint64 (fun _ => writeVarint_ne_nil _) _
      (VectorFits.of_length hi)
    rw [writeTxin, List.cons_append, bind_of_eq (readUint8_cons _ _),
      if_neg (by decide), if_neg (by decide), if_neg (by decide), if_pos rfl, readTxinToKey,
      List.append_assoc, List.append_assoc, bind_of_eq (readVarint64_write _ _),
      bind_of_eq (hoffs _), bind_of_eq (inverts_readHash _ trivial rest)]
    rfl

theorem writeTxin_ne_nil (i : Txin) : writeTxin i ≠ [] := by
  cases i <;> simp [writeTxin]

theorem writeTxOut_ne_nil (o : TxOut) : writeTxOut o ≠ [] := by
  simp [writeTxOut, writeVarint_ne_nil]

theorem writeVector_ne_nil {α : Type} (w : α → Blob) (l : List α) : writeVector w l ≠ [] := by
  simp [writeVector, writeVarint_ne_nil]

theorem inverts_readTransactionPrefix :
    Inverts (readTransactionPrefix checkedVarint) writeTransactionPrefix
      fun t => t.version ≤ CURRENT_TRANSACTION_VERSION ∧ t.Fits := by
  rintro t ⟨hv, hvin, hvout, hextra⟩ rest
  simp only [writeTransactionPrefix, List.append_assoc]
  rw [readTransactionPrefix, bind_of_eq (readVarint64_write _ _),
    if_neg (UInt64.not_lt.mpr hv),
    bind_of_eq (readVarint64_write _ _),
    bind_of_eq (inverts_readVector inverts_readTxin writeTxin_ne_nil _ hvin _),
    bind_of_eq (inverts_readVector inverts_readTxOut writeTxOut_ne_nil _ hvout _),
    bind_of_eq (inverts_readBlob _ hextra rest)]
  rfl

theorem inverts_readSignatures :
    Inverts (readVector checkedVarint (readVector checkedVarint readSignature))
      (writeVector (writeVector fun s => podBytes 64 s.toNat))
      (VectorFits fun l : List Signature => l.length < 2 ^ 64) := by
  have hsig (s : Signature) : podBytes 64 s.toNat ≠ [] := List.ne_nil_of_length_pos (by simp)
  have hrow : Inverts (readVector checkedVarint readSignature)
      (writeVector fun s => podBytes 64 s.toNat) fun l : List Signature => l.length < 2 ^ 64 :=
    fun l hl => inverts_readVector inverts_readSignature hsig l (VectorFits.of_length hl)
  exact inverts_readVector hrow fun _ => writeVector_ne_nil _ _

theorem inverts_readTransaction :
    Inverts (readTransaction checkedVarint) writeTransaction
      fun t => t.version ≤ CURRENT_TRANSACTION_VERSION ∧ t.Fits := by
  rintro t ⟨hv, hp, hs⟩ rest
  rw [readTransaction, writeTransaction, List.append_assoc,
    bind_of_eq (inverts_readTransactionPrefix _ ⟨hv, hp⟩ _),
    bind_of_eq (inverts_readSignatures _ hs rest)]
  rfl

theorem inverts_readBlockHeader :
    Inverts (readBlockHeader checkedVarint) writeBlockHeader
      fun b => b.majorVersion ≤ CURRENT_BLOCK_MAJOR_VERSION := by
  intro b hv rest
  have hnonce : b.nonce.toNat < 256 ^ 8 := b.nonce.toNat_lt
  simp only [writeBlockHeader, List.append_assoc, List.cons_append, List.nil_append]
  rw [readBlockHeader, bind_of_eq (readUint8_cons _ _), if_neg (UInt8.not_lt.mpr hv),
    bind_of_eq (inverts_readPod 8 _ hnonce _), bind_of_eq (inverts_readHash _ trivial _),
    bind_of_eq (inverts_checkedVarint (by norm_num) _ b.minorVersion.toNat_lt _),
    bind_of_eq (readVarint64_write _ _), bind_of_eq (readUint8_cons _ rest)]
  simp

theorem inverts_readBlock :
    Inverts (readBlock checkedVarint) writeBlock
      fun b => b.majorVersion ≤ CURRENT_BLOCK_MAJOR_VERSION ∧
        b.minerTx.version ≤ CURRENT_TRANSACTION_VERSION ∧ b.Fits := by
  rintro b ⟨hv, htx, hminer, hhashes⟩ rest
  rw [readBlock, writeBlock, List.append_assoc, List.append_assoc,
    bind_of_eq (inverts_readBlockHeader _ hv _),
    bind_of_eq (inverts_readTransaction _ ⟨htx, hminer⟩ _),
    bind_of_eq (inverts_readHashes _ hhashes rest)]
  rfl

end Inverts

section Exact

theorem exact_readTxoutToScript :
    Reading.Exact (readTxoutToScript checkedVarint) writeTxoutToScript := by
  intro l o rest h
  obtain ⟨keys, l₁, hkeys, h⟩ := bind_eq_some.mp h
  obtain ⟨script, l₂, hscript, h⟩ := bind_eq_some.mp h
  obtain ⟨rfl, rfl⟩ := pure_eq_some.mp h
  obtain rfl := exact_readVector exact_readHash _ _ _ hkeys
  obtain rfl := exact_readVector exact_readUint8 _ _ _ hscript
  rw [writeTxoutToScript, List.append_assoc]
  rfl

theorem exact_readTxoutTarget :
    Reading.Exact (readTxoutTarget checkedVarint) writeTxoutTarget := by
  intro l o rest hr
  obtain ⟨t, l₁, ht, h⟩ := bind_eq_some.mp hr
  rw [token_eq_some.mp ht]
  split_ifs at h with h0 h1 h2
  · obtain ⟨out, l₂, hout, h⟩ := bind_eq_some.mp h
    obtain ⟨rfl, rfl⟩ := pure_eq_some.mp h
    obtain rfl := exact_readTxoutToScript _ _ _ hout
    rw [h0, writeTxoutTarget, List.cons_append]
  · obtain ⟨hash, l₂, hhash, h⟩ := bind_eq_some.mp h
    obtain ⟨rfl, rfl⟩ := pure_eq_some.mp h
    obtain rfl := exact_readHash _ _ _ hhash
    rw [h1, writeTxoutTarget, List.cons_append]
  · obtain ⟨key, l₂, hkey, h⟩ := bind_eq_some.mp h
    obtain ⟨mixAttr, l₃, hmix, h⟩ := bind_eq_some.mp h
    obtain ⟨rfl, rfl⟩ := pure_eq_some.mp h
    obtain rfl := exact_readHash _ _ _ hkey
    obtain rfl := token_eq_some.mp hmix
    rw [h2, writeTxoutTarget, List.cons_append, List.append_assoc]
    rfl
  · simp at h

theorem exact_readTxOut : Reading.Exact (readTxOut checkedVarint) writeTxOut := by
  intro l o rest h
  obtain ⟨amount, l₁, hamount, h⟩ := bind_eq_some.mp h
  obtain ⟨target, l₂, htarget, h⟩ := bind_eq_some.mp h
  obtain ⟨rfl, rfl⟩ := pure_eq_some.mp h
  obtain rfl := exact_readVarint64 _ _ _ hamount
  obtain rfl := exact_readTxoutTarget _ _ _ htarget
  rw [writeTxOut, List.append_assoc]

theorem exact_readTxin : Reading.Exact (readTxin checkedVarint) writeTxin := by
  intro l i rest hr
  obtain ⟨t, l₁, ht, h⟩ := bind_eq_some.mp hr
  rw [token_eq_some.mp ht]
  split_ifs at h with hgen h0 h1 h2
  · obtain ⟨height, l₂, hheight, h⟩ := bind_eq_some.mp h
    obtain ⟨rfl, rfl⟩ := pure_eq_some.mp h
    obtain rfl := exact_readVarint64 _ _ _ hheight
    rw [hgen, writeTxin, List.cons_append]
  · obtain ⟨prev, l₂, hprev, h⟩ := bind_eq_some.mp h
    obtain ⟨prevout, l₃, hout, h⟩ := bind_eq_some.mp h
    obtain ⟨sigset, l₄, hsig, h⟩ := bind_eq_some.mp h
    obtain ⟨rfl, rfl⟩ := pure_eq_some.mp h
    obtain rfl := exact_readHash _ _ _ hprev
    obtain rfl := exact_readVarint64 _ _ _ hout
    obtain rfl := exact_readVector exact_readUint8 _ _ _ hsig
    simp only [h0, writeTxin, writeBlob, List.cons_append, List.append_assoc]
  · obtain ⟨prev, l₂, hprev, h⟩ := bind_eq_some.mp h
    obtain ⟨prevout, l₃, hout, h⟩ := bind_eq_some.mp h
    obtain ⟨script, l₄, hscript, h⟩ := bind_eq_some.mp h
    obtain ⟨sigset, l₅, hsig, h⟩ := bind_eq_some.mp h
    obtain ⟨rfl, rfl⟩ := pure_eq_some.mp h
    obtain rfl := exact_readHash _ _ _ hprev
    obtain rfl := exact_readVarint64 _ _ _ hout
    obtain rfl := exact_readTxoutToScript _ _ _ hscript
    obtain rfl := exact_readVector exact_readUint8 _ _ _ hsig
    simp only [h1, writeTxin, writeBlob, List.cons_append, List.append_assoc]
  · obtain ⟨amount, l₂, hamount, h⟩ := bind_eq_some.mp h
    obtain ⟨offs, l₃, hoffs, h⟩ := bind_eq_some.mp h
    obtain ⟨kImage, l₄, himg, h⟩ := bind_eq_some.mp h
    obtain ⟨rfl, rfl⟩ := pure_eq_some.mp h
    obtain rfl := exact_readVarint64 _ _ _ hamount
    obtain rfl := exact_readVector exact_readVarint64 _ _ _ hoffs
    obtain rfl := exact_readHash _ _ _ himg
    simp only [h2, writeTxin, List.cons_append, List.append_assoc]
  · simp at h

theorem exact_readTransactionPrefix :
    Reading.Exact (readTransactionPrefix checkedVarint) writeTransactionPrefix := by
  intro l t rest h
  obtain ⟨version, l₁, hversion, h⟩ := bind_eq_some.mp h
  split_ifs at h with hv
  · simp at h
  obtain ⟨unlockTime, l₂, hunlock, h⟩ := bind_eq_some.mp h
  obtain ⟨vin, l₃, hvin, h⟩ := bind_eq_some.mp h
  obtain ⟨vout, l₄, hvout, h⟩ := bind_eq_some.mp h
  obtain ⟨extra, l₅, hextra, h⟩ := bind_eq_some.mp h
  obtain ⟨rfl, rfl⟩ := pure_eq_some.mp h
  obtain rfl := exact_readVarint64 _ _ _ hversion
  obtain rfl := exact_readVarint64 _ _ _ hunlock
  obtain rfl := exact_readVector exact_readTxin _ _ _ hvin
  obtain rfl := exact_readVector exact_readTxOut _ _ _ hvout
  obtain rfl := exact_readVector exact_readUint8 _ _ _ hextra
  simp only [writeTransactionPrefix, writeBlob, List.append_assoc]

theorem exact_readTransaction :
    Reading.Exact (readTransaction checkedVarint) writeTransaction := by
  intro l t rest h
  obtain ⟨txPrefix, l₁, hprefix, h⟩ := bind_eq_some.mp h
  obtain ⟨signatures, l₂, hsigs, h⟩ := bind_eq_some.mp h
  obtain ⟨rfl, rfl⟩ := pure_eq_some.mp h
  obtain rfl := exact_readTransactionPrefix _ _ _ hprefix
  obtain rfl := exact_readVector (exact_readVector exact_readSignature) _ _ _ hsigs
  rw [writeTransaction, List.append_assoc]

theorem exact_readBlockHeader :
    Reading.Exact (readBlockHeader checkedVarint) writeBlockHeader := by
  intro l b rest h
  obtain ⟨major, l₁, hmajor, h⟩ := bind_eq_some.mp h
  split_ifs at h with hv
  · simp at h
  obtain ⟨nonce, l₂, hnonce, h⟩ := bind_eq_some.mp h
  obtain ⟨prevId, l₃, hprev, h⟩ := bind_eq_some.mp h
  obtain ⟨minor, l₄, hminor, h⟩ := bind_eq_some.mp h
  obtain ⟨timestamp, l₅, htime, h⟩ := bind_eq_some.mp h
  obtain ⟨flags, l₆, hflags, h⟩ := bind_eq_some.mp h
  obtain ⟨rfl, rfl⟩ := pure_eq_some.mp h
  obtain rfl := token_eq_some.mp hmajor
  obtain ⟨hlt, rfl⟩ := readPod_eq_some hnonce
  obtain rfl := exact_readHash _ _ _ hprev
  have hbyte := yields_checkedVarint 8 _ _ _ hminor
  obtain rfl := exact_checkedVarint (by norm_num) _ _ _ hminor
  obtain rfl := exact_readVarint64 _ _ _ htime
  obtain rfl := token_eq_some.mp hflags
  simp only [writeBlockHeader, List.append_assoc, List.cons_append, List.nil_append,
    UInt64.toNat_ofNat_of_lt' hlt, UInt8.toNat_ofNat_of_lt' hbyte]

theorem exact_readBlock : Reading.Exact (readBlock checkedVarint) writeBlock := by
  intro l b rest h
  obtain ⟨header, l₁, hheader, h⟩ := bind_eq_some.mp h
  obtain ⟨minerTx, l₂, hminer, h⟩ := bind_eq_some.mp h
  obtain ⟨txHashes, l₃, hhashes, h⟩ := bind_eq_some.mp h
  obtain ⟨rfl, rfl⟩ := pure_eq_some.mp h
  obtain rfl := exact_readBlockHeader _ _ _ hheader
  obtain rfl := exact_readTransaction _ _ _ hminer
  obtain rfl := exact_readVector exact_readHash _ _ _ hhashes
  simp only [writeBlock, List.append_assoc]

end Exact

section Yields

variable {rv : VarintReader} (hrv : ∀ bits, Yields (rv bits) (· < 2 ^ bits))
include hrv

theorem readVector_length {α : Type} {r : Reader UInt8 α} {l rest : Blob} {as : List α}
    (h : readVector rv r l = some (as, rest)) : as.length < 2 ^ 64 :=
  (yields_readVector hrv (fun _ _ _ _ => trivial) l as rest h).1

theorem yields_readTxoutToScript : Yields (readTxoutToScript rv) TxoutToScript.Fits := by
  intro l o rest h
  obtain ⟨keys, l₁, hkeys, h⟩ := bind_eq_some.mp h
  obtain ⟨script, l₂, hscript, h⟩ := bind_eq_some.mp h
  obtain ⟨rfl, -⟩ := pure_eq_some.mp h
  exact ⟨readVector_length hrv hkeys, readVector_length hrv hscript⟩

theorem yields_readTxOut : Yields (readTxOut rv) TxOut.Fits := by
  intro l o rest h
  obtain ⟨amount, l₁, -, h⟩ := bind_eq_some.mp h
  obtain ⟨target, l₂, htarget, h⟩ := bind_eq_some.mp h
  obtain ⟨rfl, -⟩ := pure_eq_some.mp h
  obtain ⟨t, l₃, -, h⟩ := bind_eq_some.mp htarget
  show target.Fits
  split_ifs at h
  · obtain ⟨out, l₄, hout, h⟩ := bind_eq_some.mp h
    obtain ⟨rfl, -⟩ := pure_eq_some.mp h
    exact yields_readTxoutToScript hrv _ _ _ hout
  · obtain ⟨hash, l₄, -, h⟩ := bind_eq_some.mp h
    obtain ⟨rfl, -⟩ := pure_eq_some.mp h
    trivial
  · obtain ⟨key, l₄, -, h⟩ := bind_eq_some.mp h
    obtain ⟨mixAttr, l₅, -, h⟩ := bind_eq_some.mp h
    obtain ⟨rfl, -⟩ := pure_eq_some.mp h
    trivial
  · simp at h

theorem yields_readTxin : Yields (readTxin rv) Txin.Fits := by
  intro l i rest h
  obtain ⟨t, l₁, -, h⟩ := bind_eq_some.mp h
  split_ifs at h
  · obtain ⟨height, l₂, -, h⟩ := bind_eq_some.mp h
    obtain ⟨rfl, -⟩ := pure_eq_some.mp h
    trivial
  · obtain ⟨prev, l₂, -, h⟩ := bind_eq_some.mp h
    obtain ⟨prevout, l₃, -, h⟩ := bind_eq_some.mp h
    obtain ⟨sigset, l₄, hsig, h⟩ := bind_eq_some.mp h
    obtain ⟨rfl, -⟩ := pure_eq_some.mp h
    exact readVector_length hrv hsig
  · obtain ⟨prev, l₂, -, h⟩ := bind_eq_some.mp h
    obtain ⟨prevout, l₃, -, h⟩ := bind_eq_some.mp h
    obtain ⟨script, l₄, hscript, h⟩ := bind_eq_some.mp h
    obtain ⟨sigset, l₅, hsig, h⟩ := bind_eq_some.mp h
    obtain ⟨rfl, -⟩ := pure_eq_some.mp h
    exact ⟨yields_readTxoutToScript hrv _ _ _ hscript, readVector_length hrv hsig⟩
  · obtain ⟨amount, l₂, -, h⟩ := bind_eq_some.mp h
    obtain ⟨offs, l₃, hoffs, h⟩ := bind_eq_some.mp h
    obtain ⟨kImage, l₄, -, h⟩ := bind_eq_some.mp h
    obtain ⟨rfl, -⟩ := pure_eq_some.mp h
    exact readVector_length hrv hoffs
  · simp at h

theorem yields_readTransaction :
    Yields (readTransaction rv) fun t => t.version ≤ CURRENT_TRANSACTION_VERSION ∧ t.Fits := by
  intro l t rest h
  obtain ⟨txPrefix, l₁, hprefix, h⟩ := bind_eq_some.mp h
  obtain ⟨signatures, l₂, hsigs, h⟩ := bind_eq_some.mp h
  obtain ⟨rfl, -⟩ := pure_eq_some.mp h
  obtain ⟨version, l₃, -, h⟩ := bind_eq_some.mp hprefix
  split_ifs at h with hv
  · simp at h
  obtain ⟨unlockTime, l₄, -, h⟩ := bind_eq_some.mp h
  obtain ⟨vin, l₅, hvin, h⟩ := bind_eq_some.mp h
  obtain ⟨vout, l₆, hvout, h⟩ := bind_eq_some.mp h
  obtain ⟨extra, l₇, hextra, h⟩ := bind_eq_some.mp h
  obtain ⟨rfl, -⟩ := pure_eq_some.mp h
  refine ⟨UInt64.not_lt.mp hv, ⟨?_, ?_, readVector_length hrv hextra⟩, ?_⟩
  · exact yields_readVector hrv (yields_readTxin hrv) _ _ _ hvin
  · exact yields_readVector hrv (yields_readTxOut hrv) _ _ _ hvout
  · exact yields_readVector hrv (fun _ _ _ => readVector_length hrv) _ _ _ hsigs

theorem yields_readBlock :
    Yields (readBlock rv) fun b => b.majorVersion ≤ CURRENT_BLOCK_MAJOR_VERSION ∧
      b.minerTx.version ≤ CURRENT_TRANSACTION_VERSION ∧ b.Fits := by
  intro l b rest h
  obtain ⟨header, l₁, hheader, h⟩ := bind_eq_some.mp h
  obtain ⟨minerTx, l₂, hminer, h⟩ := bind_eq_some.mp h
  obtain ⟨txHashes, l₃, hhashes, h⟩ := bind_eq_some.mp h
  obtain ⟨rfl, -⟩ := pure_eq_some.mp h
  obtain ⟨hversion, hfits⟩ := yields_readTransaction hrv _ _ _ hminer
  refine ⟨?_, hversion, hfits, readVector_length hrv hhashes⟩
  obtain ⟨major, l₄, -, h⟩ := bind_eq_some.mp hheader
  split_ifs at h with hv
  · simp at h
  obtain ⟨nonce, l₅, -, h⟩ := bind_eq_some.mp h
  obtain ⟨prevId, l₆, -, h⟩ := bind_eq_some.mp h
  obtain ⟨minor, l₇, -, h⟩ := bind_eq_some.mp h
  obtain ⟨timestamp, l₈, -, h⟩ := bind_eq_some.mp h
  obtain ⟨flags, l₉, -, h⟩ := bind_eq_some.mp h
  obtain ⟨rfl, -⟩ := pure_eq_some.mp h
  exact UInt8.not_lt.mp hv

end Yields

section Below

variable {rv rv' : VarintReader} (hrv : ∀ bits, Below (rv bits) (rv' bits))
include hrv

theorem below_readVarint64 : Below (readVarint64 rv) (readVarint64 rv') :=
  (hrv 64).bind fun _ => Below.refl _

theorem below_readVector {α : Type} {r r' : Reader UInt8 α} (h : Below r r') :
    Below (readVector rv r) (readVector rv' r') :=
  (hrv 64).bind fun cnt => (Below.refl _).bind fun _ => h.times cnt

theorem below_readBlob : Below (readBlob rv) (readBlob rv') := below_readVector hrv (Below.refl _)

theorem below_readTxoutToScript : Below (readTxoutToScript rv) (readTxoutToScript rv') :=
  (below_readVector hrv (Below.refl _)).bind fun _ => (below_readBlob hrv).bind fun _ => Below.refl _

theorem below_readTxOut : Below (readTxOut rv) (readTxOut rv') := by
  refine (below_readVarint64 hrv).bind fun _ => Below.bind ?_ fun _ => Below.refl _
  refine (Below.refl _).bind fun _ => Below.ite ?_ (Below.refl _)
  exact (below_readTxoutToScript hrv).bind fun _ => Below.refl _

theorem below_readTxin : Below (readTxin rv) (readTxin rv') := by
  refine (Below.refl _).bind fun _ => ?_
  refine Below.ite ?_ (Below.ite ?_ (Below.ite ?_ (Below.ite ?_ (Below.refl _))))
  · exact (below_readVarint64 hrv).bind fun _ => Below.refl _
  · exact (Below.refl _).bind fun _ => (below_readVarint64 hrv).bind fun _ =>
      (below_readBlob hrv).bind fun _ => Below.refl _
  · exact (Below.refl _).bind fun _ => (below_readVarint64 hrv).bind fun _ =>
      (below_readTxoutToScript hrv).bind fun _ => (below_readBlob hrv).bind fun _ => Below.refl _
  · exact (below_readVarint64 hrv).bind fun _ =>
      (below_readVector hrv (below_readVarint64 hrv)).bind fun _ => Below.refl _

theorem below_readTransaction : Below (readTransaction rv) (readTransaction rv') := by
  refine Below.bind ?_ fun _ => Below.bind ?_ fun _ => Below.refl _
  · refine (below_readVarint64 hrv).bind fun _ => Below.ite (Below.refl _) ?_
    refine (below_readVarint64 hrv).bind fun _ => ?_
    refine (below_readVector hrv (below_readTxin hrv)).bind fun _ => ?_
    refine (below_readVector hrv (below_readTxOut hrv)).bind fun _ => ?_
    exact (below_readBlob hrv).bind fun _ => Below.refl _
  · exact below_readVector hrv (below_readVector hrv (Below.refl _))

theorem below_readBlock : Below (readBlock rv) (readBlock rv') := by
  refine Below.bind ?_ fun _ => ?_
  · refine (Below.refl _).bind fun _ => Below.ite (Below.refl _) ?_
    refine (Below.refl _).bind fun _ => (Below.refl _).bind fun _ => ?_
    refine (hrv 8).bind fun _ => (below_readVarint64 hrv).bind fun _ => Below.refl _
  · refine (below_readTransaction hrv).bind fun _ => ?_
    exact (below_readVector hrv (Below.refl _)).bind fun _ => Below.refl _

end Below

theorem txToBlob_eq {t : Transaction} (h : t.version ≤ CURRENT_TRANSACTION_VERSION) :
    txToBlob t = some (writeTransaction t) := by
  rw [txToBlob, if_neg (UInt64.not_lt.mpr h)]

theorem blockToBlob_eq {b : Block} (h : b.majorVersion ≤ CURRENT_BLOCK_MAJOR_VERSION)
    (htx : b.minerTx.version ≤ CURRENT_TRANSACTION_VERSION) :
    blockToBlob b = some (writeBlock b) := by
  rw [blockToBlob, if_neg (UInt8.not_lt.mpr h), if_neg (UInt64.not_lt.mpr htx)]

/-- Transactions and blocks of known versions survive being written and parsed. The archive also
looks at the version of a block's coinbase transaction. -/
theorem parse_of_serialized :
    (∀ t : Transaction, t.version ≤ CURRENT_TRANSACTION_VERSION → t.Fits →
      ∃ blob, txToBlob t = some blob ∧ parseAndValidateTxFromBlob blob = some t) ∧
    ∀ b : Block, b.majorVersion ≤ CURRENT_BLOCK_MAJOR_VERSION →
      b.minerTx.version ≤ CURRENT_TRANSACTION_VERSION → b.Fits →
      ∃ blob, blockToBlob b = some blob ∧ parseAndValidateBlockFromBlob blob = some b := by
  constructor
  · intro t hv hf
    refine ⟨_, txToBlob_eq hv, ?_⟩
    have hread := inverts_readTransaction.all ⟨hv, hf⟩
    exact (below_readTransaction below_checkedVarint).all hread
  · intro b hv htx hf
    refine ⟨_, blockToBlob_eq hv htx, ?_⟩
    have hread := inverts_readBlock.all ⟨hv, htx, hf⟩
    exact (below_readBlock below_checkedVarint).all hread

/-- A transaction with every kind of input and output. -/
def variedTx : Transaction :=
  { version := 1
    unlockTime := 18446744073709551615
    vin := [.gen 300, .toScript 1 2 [3], .toScripthash 1 2 ⟨[5], []⟩ [3], .toKey ⟨7, [128, 1], 9⟩]
    vout := [⟨1000000, .toScript ⟨[1, 2], [3]⟩⟩, ⟨0, .toScripthash 4⟩, ⟨5, .toKey ⟨6, 7⟩⟩]
    extra := [1, 2, 255]
    signatures := [[], [8, 9]] }

def variedBlock (version : UInt64) : Block :=
  { majorVersion := 1
    minorVersion := 255
    timestamp := 1400000000
    prevId := 11
    nonce := 12
    flags := 13
    minerTx := { variedTx with version := version }
    txHashes := [14, 15] }

theorem fits_variedTx (version : UInt64) : Transaction.Fits { variedTx with version := version } := by
  have hlen : variedTx.vin.length < 2 ^ 64 ∧ variedTx.vout.length < 2 ^ 64 ∧
      variedTx.extra.length < 2 ^ 64 ∧ variedTx.signatures.length < 2 ^ 64 := by decide
  refine ⟨⟨⟨hlen.1, ?_⟩, ⟨hlen.2.1, ?_⟩, hlen.2.2.1⟩, hlen.2.2.2, ?_⟩ <;>
    simp [variedTx, Txin.Fits, TxOut.Fits, TxoutTarget.Fits, TxoutToScript.Fits]

theorem fits_variedBlock (version : UInt64) : (variedBlock version).Fits :=
  ⟨fits_variedTx version, by simp [variedBlock]⟩

theorem parse_of_serialized_varied :
    (∃ blob, txToBlob variedTx = some blob ∧ parseAndValidateTxFromBlob blob = some variedTx) ∧
    ∃ blob, blockToBlob (variedBlock 1) = some blob ∧
      parseAndValidateBlockFromBlob blob = some (variedBlock 1) :=
  ⟨parse_of_serialized.1 variedTx (by decide) (fits_variedTx 1),
    parse_of_serialized.2 (variedBlock 1) (by decide) (by decide) (fits_variedBlock 1)⟩

/-- A block of a known major version whose coinbase transaction is of version 2 is not written. -/
theorem blockToBlob_coinbase_version : ¬∀ b : Block,
    b.majorVersion ≤ CURRENT_BLOCK_MAJOR_VERSION → b.Fits →
      ∃ blob, blockToBlob b = some blob ∧ parseAndValidateBlockFromBlob blob = some b := by
  intro h
  obtain ⟨blob, hblob, -⟩ := h (variedBlock 2) (by decide) (fits_variedBlock 2)
  have hnone : blockToBlob (variedBlock 2) = none := by decide
  rw [hnone] at hblob
  cases hblob

end Boolberry
