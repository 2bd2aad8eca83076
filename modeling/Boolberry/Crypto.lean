import Boolberry.GroupOrder
import Boolberry.FormatUtils
import Boolberry.Lib.OneOfProof

/-!
# Keys and signatures

`crypto.cpp` over the curve arithmetic of `crypto-ops.c`. Points form a commutative group;
a scalar is the little-endian value of its 32 bytes, and `sc_add`, `sc_sub` and `sc_mulsub`
reduce modulo the order of the base point. The random numbers of a call are arguments.
-/

namespace Boolberry

abbrev EcScalar := BitVec 256
abbrev EcPoint := BitVec 256
abbrev KeyDerivation := BitVec 256

/-- The operations of `crypto-ops.c`, and what they compute on the scalars their comments allow
(`a[31] <= 127`). A point has one encoding. `undecoded` is what `scalarmult_key` returns for bytes
that are no point, whose failed decoding it does not notice. -/
structure CryptoOps (G : Type) [AddCommGroup G] where
  base : G
  tobytes : G → EcPoint
  frombytesVartime : EcPoint → Option G
  fromfeFrombytesVartime : Hash → G
  scalarmult : EcScalar → G → G
  undecoded : EcPoint → EcScalar → EcPoint
  frombytes_tobytes : ∀ P, frombytesVartime (tobytes P) = some P
  tobytes_zero : tobytes 0 = 1
  tobytes_of_frombytes : ∀ b P, frombytesVartime b = some P → tobytes P = b
  scalarmult_eq : ∀ a P, a.toNat < 2 ^ 255 → scalarmult a P = a.toNat • P
  base_order : groupOrder • base = 0
  base_ne : base ≠ 0
  curve_order : ∀ P : G, (8 * groupOrder) • P = 0

def scCheck (s : EcScalar) : Bool := decide (s.toNat < groupOrder)

/-- `sc_reduce` of 64 bytes. -/
def scReduce (s : BitVec 512) : EcScalar := BitVec.ofNat 256 (s.toNat % groupOrder)

def scReduce32 (s : EcScalar) : EcScalar := BitVec.ofNat 256 (s.toNat % groupOrder)

def scAdd (a b : EcScalar) : EcScalar := BitVec.ofNat 256 ((a.toNat + b.toNat) % groupOrder)

def scSub (a b : EcScalar) : EcScalar :=
  BitVec.ofNat 256 (OneOfProof.subMod groupOrder a.toNat b.toNat)

/-- `c - ab`. -/
def scMulsub (a b c : EcScalar) : EcScalar :=
  BitVec.ofNat 256 (OneOfProof.subMod groupOrder c.toNat (a.toNat * b.toNat))

/-- The members of `signature`, which lie one after the other. -/
def sigC (sig : Signature) : EcScalar := BitVec.ofNat 256 sig.toNat
def sigR (sig : Signature) : EcScalar := BitVec.ofNat 256 (sig.toNat / 2 ^ 256)
def mkSig (c r : EcScalar) : Signature := BitVec.ofNat 512 (c.toNat + 2 ^ 256 * r.toNat)

namespace CryptoOps

variable {G : Type} [AddCommGroup G] (H : Blob → Hash) (C : CryptoOps G)

def hashToScalar (data : Blob) : EcScalar := scReduce32 (H data)

/-- `ge_scalarmult_base`. -/
def scalarmultBase (a : EcScalar) : G := C.scalarmult a C.base

/-- The public and the secret key and the seed that restores them. -/
def generateKeys (rnd : BitVec 512) : PublicKey × SecretKey × Blob :=
  let sec := scReduce rnd
  (C.tobytes (C.scalarmultBase sec), sec, hashBytes sec)

def checkKey (key : PublicKey) : Bool := (C.frombytesVartime key).isSome

def scalarmultKey (P : KeyImage) (a : EcScalar) : KeyImage :=
  match C.frombytesVartime P with
  | none => C.undecoded P a
  | some A => C.tobytes (C.scalarmult a A)

/-- `I` and `L` of `crypto.cpp`. -/
def imageI : KeyImage := 1
def imageL : KeyImage := BitVec.ofNat 256 groupOrder

def validateKeyImage (ki : KeyImage) : Bool := C.scalarmultKey ki imageL == imageI

def secretKeyToPublicKey (sec : SecretKey) : Option PublicKey :=
  if scCheck sec then some (C.tobytes (C.scalarmultBase sec)) else none

def generateKeyDerivation (key1 : PublicKey) (key2 : SecretKey) : Option KeyDerivation :=
  (C.frombytesVartime key1).map fun point => C.tobytes (8 • C.scalarmult key2 point)

def derivationToScalar (derivation : KeyDerivation) (outputIndex : ℕ) : EcScalar :=
  hashToScalar H (hashBytes derivation ++ writeVarint outputIndex)

def derivePublicKey (derivation : KeyDerivation) (outputIndex : ℕ) (base : PublicKey) :
    Option PublicKey :=
  (C.frombytesVartime base).map fun point1 =>
    C.tobytes (point1 + C.scalarmultBase (derivationToScalar H derivation outputIndex))

def deriveSecretKey (derivation : KeyDerivation) (outputIndex : ℕ) (base : SecretKey) : SecretKey :=
  scAdd base (derivationToScalar H derivation outputIndex)

def hashToEc (key : PublicKey) : G := 8 • C.fromfeFrombytesVartime (H (hashBytes key))

def generateKeyImage (pub : PublicKey) (sec : SecretKey) : KeyImage :=
  C.tobytes (C.scalarmult sec (C.hashToEc H pub))

/-- The bytes of `s_comm`. -/
def sComm (h : Hash) (key comm : EcPoint) : Blob := hashBytes h ++ hashBytes key ++ hashBytes comm

def checkSignature (prefixHash : Hash) (pub : PublicKey) (sig : Signature) : Bool :=
  match C.frombytesVartime pub with
  | none => false
  | some point =>
      if !scCheck (sigC sig) || !scCheck (sigR sig) then false
      else
        let comm := (sigC sig).toNat • point + (sigR sig).toNat • C.base
        scSub (hashToScalar H (sComm prefixHash pub (C.tobytes comm))) (sigC sig) == 0

/-- The bytes of one `rs_comm::point`. -/
def rsCommPoint (p : G × G) : Blob := hashBytes (C.tobytes p.1) ++ hashBytes (C.tobytes p.2)

/-- What `c` and `r` commit to at one ring place. -/
def ringCommitment (imageUnp : G) (pub : PublicKey) (P : G) (c r : EcScalar) : G × G :=
  (c.toNat • P + r.toNat • C.base, r.toNat • C.hashToEc H pub + c.toNat • imageUnp)

/-- The loop of `check_ring_signature`, with `buf` and `sum`. -/
def checkRingLoop (imageUnp : G) : List (PublicKey × Signature) → Blob → EcScalar →
    Option (Blob × EcScalar)
  | [], buf, sum => some (buf, sum)
  | (pub, sig) :: l, buf, sum =>
      if !scCheck (sigC sig) || !scCheck (sigR sig) then none
      else
        match C.frombytesVartime pub with
        | none => none
        | some P =>
            let comm := C.ringCommitment H imageUnp pub P (sigC sig) (sigR sig)
            checkRingLoop imageUnp l (buf ++ C.rsCommPoint comm) (scAdd sum (sigC sig))

/-- The callers pass as many signatures as keys. -/
def checkRingSignature (prefixHash : Hash) (image : KeyImage) (pubs : List PublicKey)
    (sigs : List Signature) : Bool :=
  match C.frombytesVartime image with
  | none => false
  | some imageUnp =>
      match C.checkRingLoop H imageUnp (pubs.zip sigs) (hashBytes prefixHash) 0 with
      | none => false
      | some (buf, sum) => scSub (hashToScalar H buf) sum == 0

/-- What the loop of `generate_ring_signature` carries. -/
structure RingDraft where
  buf : Blob
  sum : EcScalar
  k : EcScalar
  sigs : List Signature

/-- The loop of `generate_ring_signature` from place `i` on. `rnd` gives the one or two random
numbers drawn at a place; a key that is no point aborts. -/
def generateRingLoop (imageUnp : G) (secIndex : ℕ) (rnd : ℕ → BitVec 512 × BitVec 512) :
    List PublicKey → ℕ → RingDraft → Option RingDraft
  | [], _, d => some d
  | pub :: l, i, d =>
      if i = secIndex then
        let k := scReduce (rnd i).1
        let comm := (C.scalarmultBase k, C.scalarmult k (C.hashToEc H pub))
        generateRingLoop imageUnp secIndex rnd l (i + 1)
          { d with buf := d.buf ++ C.rsCommPoint comm, k := k, sigs := d.sigs ++ [nullSig] }
      else
        let c := scReduce (rnd i).1
        let r := scReduce (rnd i).2
        match C.frombytesVartime pub with
        | none => none
        | some P =>
            let comm := C.ringCommitment H imageUnp pub P c r
            generateRingLoop imageUnp secIndex rnd l (i + 1)
              { d with
                buf := d.buf ++ C.rsCommPoint comm
                sum := scAdd d.sum c
                sigs := d.sigs ++ [mkSig c r] }

/-- `none` is `abort`. -/
def generateRingSignature (prefixHash : Hash) (image : KeyImage) (pubs : List PublicKey)
    (sec : SecretKey) (secIndex : ℕ) (rnd : ℕ → BitVec 512 × BitVec 512) :
    Option (List Signature) :=
  match C.frombytesVartime image with
  | none => none
  | some imageUnp =>
      (C.generateRingLoop H imageUnp secIndex rnd pubs 0 ⟨hashBytes prefixHash, 0, 0, []⟩).map
        fun d =>
          let c := scSub (hashToScalar H d.buf) d.sum
          d.sigs.set secIndex (mkSig c (scMulsub c sec d.k))

end CryptoOps
end Boolberry
