import Boolberry.SwapInfo
import Boolberry.SweepBoundary
import Boolberry.RingMembers

/-!
# Making a transaction

`construct_tx` with the keys of `crypto.cpp`: the inputs with their key images, the one-time keys of
the outputs and the ring signatures. A node whose index holds the rings accepts the inputs, and
the owner of an address finds the outputs made for it and can spend them.
-/

namespace Boolberry

open CryptoOps KeyValue OneOfProof

section Construction

variable {G : Type} [AddCommGroup G] (E : Env) (C : CryptoOps G)

/-- `generate_key_image_helper`: the one-time keys of an output of ours and its key image. -/
def generateKeyImageHelper (ack : AccountBase) (txPublicKey : PublicKey) (realOutputIndex : ℕ) :
    Option (Keypair × KeyImage) := do
  let recvDerivation ← C.generateKeyDerivation txPublicKey ack.keys.viewSecretKey
  let pub ← C.derivePublicKey E.cnFastHash recvDerivation realOutputIndex
    ack.keys.accountAddress.spendPublicKey
  let sec := deriveSecretKey E.cnFastHash recvDerivation realOutputIndex ack.spendSecretKey
  return (⟨pub, sec⟩, C.generateKeyImage E.cnFastHash pub sec)

/-- `is_out_to_acc`, which does not look whether the two calls succeed; `junk` is what the variables
held. -/
def isOutToAcc (junk : KeyDerivation × PublicKey) (acc : AccountKeys) (outKey : TxoutToKey)
    (txPubKey : PublicKey) (outputIndex : ℕ) : Bool :=
  let derivation := (C.generateKeyDerivation txPubKey acc.viewSecretKey).getD junk.1
  let pk := (C.derivePublicKey E.cnFastHash derivation outputIndex
    acc.accountAddress.spendPublicKey).getD junk.2
  pk == outKey.key

/-- A node that checks keys and signatures with `crypto.cpp`. -/
def Env.withCrypto (E : Env) (C : CryptoOps G) (junk : KeyDerivation × PublicKey) : Env :=
  { E with
    checkKey := C.checkKey
    validateKeyImage := C.validateKeyImage
    checkRingSignature := C.checkRingSignature E.cnFastHash
    checkSignature := C.checkSignature E.cnFastHash
    isOutToAcc := Boolberry.isOutToAcc E C junk }

/-- A wallet that does; a key image helper that fails leaves what its results held. -/
def WalletEnv.withCrypto (E : WalletEnv) (C : CryptoOps G) (junk : KeyDerivation × PublicKey)
    (junkKeys : PublicKey × KeyImage) : WalletEnv where
  toEnv := E.toEnv.withCrypto C junk
  generateKeyImageHelper ack txPublicKey i :=
    ((Boolberry.generateKeyImageHelper E.toEnv C ack txPublicKey i).map
      fun r => (r.1.pub, r.2)).getD junkKeys

def constructTxOut (destinationAddr : DestinationAddress) (txSecKey : SecretKey) (outputIndex : ℕ)
    (amount : UInt64) (txOutsAttr : UInt8) : Option TxOut :=
  if destinationAddr.isSwapAddress then some ⟨amount, .toKey ⟨nullPkey, txOutsAttr⟩⟩
  else do
    let derivation ← C.generateKeyDerivation destinationAddr.viewPublicKey txSecKey
    let outEphPublicKey ← C.derivePublicKey E.cnFastHash derivation outputIndex
      destinationAddr.spendPublicKey
    return ⟨amount, .toKey ⟨outEphPublicKey, txOutsAttr⟩⟩

/-- The outputs from position `i` on. -/
def constructOuts (txSecKey : SecretKey) (txOutsAttr : UInt8) :
    ℕ → List TxDestinationEntry → Option (List TxOut)
  | _, [] => some []
  | i, d :: l =>
      if d.amount = 0 then none
      else
        match constructTxOut E C d.addr txSecKey i d.amount txOutsAttr with
        | none => none
        | some out => (constructOuts txSecKey txOutsAttr (i + 1) l).map (out :: ·)

/-- The input for a source with the secret key of its real output. -/
def constructInput (keys : AccountBase) (src : TxSourceEntry) : Option (SecretKey × TxinToKey) :=
  match src.outputs[src.realOutput]? with
  | none => none
  | some real =>
      match generateKeyImageHelper E C keys src.realOutTxKey src.realOutputInTxIndex with
      | none => none
      | some (inEphemeral, img) =>
          if inEphemeral.pub ≠ real.2 then none
          else some (inEphemeral.sec,
            { amount := src.amount
              keyOffsets := absoluteOutputOffsetsToRelative (src.outputs.map Prod.fst)
              kImage := img })

/-- The ring signatures of the inputs from `i` on. -/
def signInputs (prefixHash : Hash) (rnd : ℕ → ℕ → BitVec 512 × BitVec 512) :
    ℕ → List TxSourceEntry → List (SecretKey × TxinToKey) → Option (List (List Signature))
  | i, src :: sources, (sec, txin) :: inputs =>
      match C.generateRingSignature E.cnFastHash prefixHash txin.kImage (src.outputs.map Prod.snd) sec
          src.realOutput (rnd i) with
      | none => none
      | some sigs => (signInputs prefixHash rnd (i + 1) sources inputs).map (sigs :: ·)
  | _, _, _ => some []

/-- What a call of `construct_tx` meets: the random numbers of the transaction's key and of the
rings, the cipher's buffer, the key swap addresses are encrypted for, and `std::sort` by amount,
which may leave equal amounts in any order. -/
structure ConstructRun where
  txKey : BitVec 512
  ring : ℕ → ℕ → BitVec 512 × BitVec 512
  tmp : Vector UInt8 64
  swapPub : PublicKey
  sortByAmount : List TxDestinationEntry → List TxDestinationEntry

/-- The key pair of the transaction. -/
def ConstructRun.txkey (x : ConstructRun) (C : CryptoOps G) : Keypair :=
  ⟨(C.generateKeys x.txKey).1, (C.generateKeys x.txKey).2.1⟩

/-- The transaction before anything is filled in. -/
def blankTx (unlockTime : UInt64) (extra : Blob) : Transaction :=
  { version := CURRENT_TRANSACTION_VERSION, unlockTime, vin := [], vout := [], extra, signatures := [] }

/-- The extra of the transaction: a swap address is encrypted in it, and the public key follows. -/
def constructExtra (x : ConstructRun) (destinations : List TxDestinationEntry) (extra : Blob)
    (unlockTime : UInt64) : Blob :=
  (if isSwapTx E (blankTx unlockTime extra) destinations then
      encryptUserDataWithTxSecretKey E C x.tmp x.swapPub (x.txkey C).sec extra
    else extra) ++ (ExtraEntry.pubkey (x.txkey C).pub).bytes

/-- `construct_tx`. `none` stands for false, and for the `abort` of `generate_ring_signature`. -/
def constructTx (x : ConstructRun) (keys : AccountBase) (sources : List TxSourceEntry)
    (destinations : List TxDestinationEntry) (extra : Blob) (unlockTime : UInt64)
    (txOutsAttr : UInt8) : Option (Transaction × Keypair) :=
  match sources.mapM (constructInput E C keys) with
  | none => none
  | some inputs =>
      match constructOuts E C (x.txkey C).sec txOutsAttr 0 (x.sortByAmount destinations) with
      | none => none
      | some vout =>
          let summaryInputsMoney := (sources.map TxSourceEntry.amount).foldl (· + ·) 0
          let summaryOutsMoney := (vout.map TxOut.amount).foldl (· + ·) 0
          if summaryInputsMoney < summaryOutsMoney then none
          else
            let tx : Transaction :=
              { blankTx unlockTime (constructExtra E C x destinations extra unlockTime) with
                vin := inputs.map fun i => .toKey i.2
                vout := vout }
            (signInputs E C (getTransactionHash E tx) x.ring 0 sources inputs).map fun signatures =>
              ({ tx with signatures := signatures }, x.txkey C)

/-- The key images of the outputs from `i` on that pay to the keys; `none` is a failed derivation. -/
def changeImages (keys : AccountBase) (derivation : KeyDerivation) :
    ℕ → List TxOut → Option (List (ℕ × KeyImage))
  | _, [] => some []
  | i, out :: l =>
      match out.target with
      | .toKey otk =>
          match C.derivePublicKey E.cnFastHash derivation i keys.keys.accountAddress.spendPublicKey with
          | none => none
          | some ephemeralPub =>
              if otk.key = ephemeralPub then
                let ephemeralSec := deriveSecretKey E.cnFastHash derivation i keys.spendSecretKey
                (changeImages keys derivation (i + 1) l).map
                  ((i, C.generateKeyImage E.cnFastHash ephemeralPub ephemeralSec) :: ·)
              else changeImages keys derivation (i + 1) l
      | _ => changeImages keys derivation (i + 1) l

/-- `construct_tx` of a wallet's request. The derivation is zero when it fails. -/
def constructTxRes (x : ConstructRun) (keys : AccountBase) (arg : CreateTxArg) : Option CreateTxRes :=
  match constructTx E C x keys arg.sources arg.splittedDsts arg.extra arg.unlockTime arg.txOutsAttr with
  | none => none
  | some (tx, txkey) =>
      let derivation :=
        (C.generateKeyDerivation keys.keys.accountAddress.viewPublicKey txkey.sec).getD 0
      (changeImages E C keys derivation 0 tx.vout).map fun images => ⟨tx, txkey, images⟩

/-- The owner's keys belong together. -/
structure AccountBase.Owned (C : CryptoOps G) (ack : AccountBase) : Prop where
  spend : C.secretKeyToPublicKey ack.spendSecretKey = some ack.keys.accountAddress.spendPublicKey
  view : C.secretKeyToPublicKey ack.keys.viewSecretKey = some ack.keys.accountAddress.viewPublicKey

variable {C}

theorem generateKeyDerivation_eq {a b : SecretKey} {A : PublicKey}
    (ha : C.secretKeyToPublicKey a = some A) (hb : b.toNat < groupOrder) :
    C.generateKeyDerivation A b = some (C.tobytes (8 • (b.toNat • (a.toNat • C.base)))) := by
  obtain ⟨-, rfl⟩ := C.secretKeyToPublicKey_eq_some.mp ha
  unfold CryptoOps.generateKeyDerivation
  rw [C.frombytes_tobytes, Option.map_some, C.scalarmult_of_lt hb]

/-- Both sides derive the same from one's secret and the other's public key. -/
theorem derivation_symm {a b : SecretKey} {A B : PublicKey}
    (ha : C.secretKeyToPublicKey a = some A) (hb : C.secretKeyToPublicKey b = some B) :
    C.generateKeyDerivation A b = C.generateKeyDerivation B a := by
  obtain ⟨hlta, -⟩ := C.secretKeyToPublicKey_eq_some.mp ha
  obtain ⟨hltb, -⟩ := C.secretKeyToPublicKey_eq_some.mp hb
  rw [generateKeyDerivation_eq ha hltb, generateKeyDerivation_eq hb hlta, ← mul_smul b.toNat,
    ← mul_smul a.toNat, mul_comm]

theorem derivationToScalar_lt (H : Blob → Hash) (derivation : KeyDerivation) (i : ℕ) :
    (derivationToScalar H derivation i).toNat < groupOrder := by
  unfold derivationToScalar hashToScalar
  rw [toNat_scReduce32]
  exact Nat.mod_lt _ groupOrder_pos

theorem derived_keys (H : Blob → Hash) {sec : SecretKey} {pub : PublicKey}
    (h : C.secretKeyToPublicKey sec = some pub) (derivation : KeyDerivation) (i : ℕ) :
    ∃ key, C.derivePublicKey H derivation i pub = some key ∧
      C.secretKeyToPublicKey (deriveSecretKey H derivation i sec) = some key := by
  obtain ⟨hlt, rfl⟩ := C.secretKeyToPublicKey_eq_some.mp h
  unfold CryptoOps.derivePublicKey
  rw [C.frombytes_tobytes, Option.map_some]
  refine ⟨_, rfl, ?_⟩
  rw [C.secretKeyToPublicKey_eq_some, deriveSecretKey, toNat_scAdd]
  refine ⟨Nat.mod_lt _ groupOrder_pos, ?_⟩
  rw [scalarmultBase, C.scalarmult_of_lt (derivationToScalar_lt H derivation i), ← add_smul]
  apply congrArg C.tobytes
  exact nsmul_congr C.base_order (ZMod.natCast_mod _ _)

theorem txkey_pair (x : ConstructRun) : C.secretKeyToPublicKey (x.txkey C).sec = some (x.txkey C).pub := by
  have hlt : (scReduce x.txKey).toNat < groupOrder := by
    rw [toNat_scReduce]
    exact Nat.mod_lt _ groupOrder_pos
  rw [C.secretKeyToPublicKey_eq_some]
  refine ⟨hlt, ?_⟩
  show C.tobytes ((scReduce x.txKey).toNat • C.base) = C.tobytes (C.scalarmultBase (scReduce x.txKey))
  rw [scalarmultBase, C.scalarmult_of_lt hlt]

variable (C) {E}

theorem generateKeyImageHelper_keys {ack : AccountBase} {txPublicKey : PublicKey} {i : ℕ}
    {r : Keypair × KeyImage}
    (hspend : C.secretKeyToPublicKey ack.spendSecretKey =
      some ack.keys.accountAddress.spendPublicKey)
    (h : generateKeyImageHelper E C ack txPublicKey i = some r) :
    C.secretKeyToPublicKey r.1.sec = some r.1.pub ∧
      r.2 = C.generateKeyImage E.cnFastHash r.1.pub r.1.sec := by
  unfold generateKeyImageHelper at h
  cases hd : C.generateKeyDerivation txPublicKey ack.keys.viewSecretKey with
  | none =>
    rw [hd] at h
    cases h
  | some derivation =>
    obtain ⟨key, hkey, hpair⟩ := derived_keys E.cnFastHash hspend derivation i
    rw [hd] at h
    simp only [Option.bind_eq_bind, Option.bind_some, hkey, Option.pure_def, Option.some.injEq] at h
    obtain rfl := h
    exact ⟨hpair, rfl⟩

end Construction

theorem go_zipWith_sub (acc prev : UInt64) (l : List UInt64) (h : acc = prev) :
    relativeOutputOffsetsToAbsolute.go acc (List.zipWith (· - ·) l (prev :: l)) = acc :: l := by
  induction l generalizing acc prev with
  | nil => rfl
  | cons o l ih =>
    rw [List.zipWith_cons_cons, relativeOutputOffsetsToAbsolute.go, h, UInt64.sub_add_cancel,
      ih o o rfl]

/-- Sorted offsets are read back from their differences. -/
theorem relative_absolute {l : List UInt64} (h : l.Pairwise (· ≤ ·)) :
    relativeOutputOffsetsToAbsolute (absoluteOutputOffsetsToRelative l) = l := by
  have hsorted : l.mergeSort (fun a b => decide (a ≤ b)) = l := by
    apply List.mergeSort_of_pairwise
    simpa using h
  unfold absoluteOutputOffsetsToRelative
  rw [hsorted]
  cases l with
  | nil => rfl
  | cons o l =>
    rw [List.zipWith_cons_cons, relativeOutputOffsetsToAbsolute, UInt64.sub_zero]
    exact go_zipWith_sub o o l rfl

theorem absoluteOutputOffsetsToRelative_length (l : List UInt64) :
    (absoluteOutputOffsetsToRelative l).length = l.length := by
  unfold absoluteOutputOffsetsToRelative
  simp

section Accepted

variable {G : Type} [AddCommGroup G] {E : Env} (C : CryptoOps G) (junk : KeyDerivation × PublicKey)
  {keys : AccountBase} {s : TxIndex} {now height : ℕ}

/-- The node's index holds the ring of a source: its offsets are in order, and each leads to the
output with the key that the wallet was told, which may be spent with a ring of this size. -/
structure Offered (s : TxIndex) (now height : ℕ) (src : TxSourceEntry) : Prop where
  sorted : (src.outputs.map Prod.fst).Pairwise (· ≤ ·)
  found : ∀ o ∈ src.outputs, ∀ txin : TxinToKey, txin.amount = src.amount →
    txin.keyOffsets.length = src.outputs.length →
    ∃ h, s.scanOutputkey now height txin o.1 = some (o.2, h)

theorem scanOutputkeys_offered {src : TxSourceEntry} {txin : TxinToKey}
    (hoffered : Offered s now height src) (hne : src.outputs ≠ []) (hamount : txin.amount = src.amount)
    (hoffsets : txin.keyOffsets = absoluteOutputOffsetsToRelative (src.outputs.map Prod.fst)) :
    ∃ h, s.scanOutputkeysForIndexes now height txin = some (src.outputs.map Prod.snd, h) := by
  have hlen : txin.keyOffsets.length = src.outputs.length := by
    rw [hoffsets, absoluteOutputOffsetsToRelative_length, List.length_map]
  have hmap (l : List (UInt64 × PublicKey)) (hl : ∀ o ∈ l, o ∈ src.outputs) :
      ∃ r : List (PublicKey × ℕ), (l.map Prod.fst).mapM (s.scanOutputkey now height txin) = some r ∧
        r.map Prod.fst = l.map Prod.snd := by
    induction l with
    | nil => exact ⟨[], rfl, rfl⟩
    | cons o l ih =>
      obtain ⟨r, hr, hkeys⟩ := ih fun q hq => hl q (List.mem_cons_of_mem _ hq)
      obtain ⟨h, hscan⟩ := hoffered.found o (hl o List.mem_cons_self) txin hamount hlen
      refine ⟨(o.2, h) :: r, ?_, ?_⟩
      · rw [List.map_cons, List.mapM_cons, hscan, hr]
        rfl
      · rw [List.map_cons, List.map_cons, hkeys]
  obtain ⟨r, hr, hkeys⟩ := hmap src.outputs fun _ h => h
  have houtputs : s.outputs txin.amount ≠ [] := by
    obtain ⟨o, ho⟩ := List.exists_mem_of_ne_nil _ hne
    obtain ⟨h, hscan⟩ := hoffered.found o ho txin hamount hlen
    intro hnil
    unfold TxIndex.scanOutputkey at hscan
    rw [hnil] at hscan
    simp at hscan
  refine ⟨(r.map Prod.snd).foldl max 0, ?_⟩
  unfold TxIndex.scanOutputkeysForIndexes
  rw [if_neg houtputs, hoffsets, relative_absolute hoffered.sorted, hr, Option.map_some, hkeys]

theorem constructInput_eq_some {src : TxSourceEntry} {input : SecretKey × TxinToKey}
    (h : constructInput E C keys src = some input) :
    ∃ (hreal : src.realOutput < src.outputs.length) (eph : Keypair),
      generateKeyImageHelper E C keys src.realOutTxKey src.realOutputInTxIndex =
        some (eph, input.2.kImage) ∧
      eph.sec = input.1 ∧ eph.pub = src.outputs[src.realOutput].2 ∧ input.2.amount = src.amount ∧
      input.2.keyOffsets = absoluteOutputOffsetsToRelative (src.outputs.map Prod.fst) := by
  unfold constructInput at h
  cases hreal : src.outputs[src.realOutput]? with
  | none =>
    rw [hreal] at h
    cases h
  | some real =>
    obtain ⟨hlt, hget⟩ := List.getElem?_eq_some_iff.mp hreal
    rw [hreal] at h
    simp only at h
    cases himg : generateKeyImageHelper E C keys src.realOutTxKey src.realOutputInTxIndex with
    | none =>
      rw [himg] at h
      cases h
    | some r =>
      rw [himg] at h
      simp only at h
      split_ifs at h with hpub
      obtain rfl := Option.some.inj h
      refine ⟨hlt, r.1, rfl, rfl, ?_, rfl, rfl⟩
      rw [hget]
      exact not_not.mp hpub

/-- A key at which the loop of `generate_ring_signature` does not abort is a point. -/
theorem generateRingLoop_keys {H : Blob → Hash} {imageUnp : G} {secIndex : ℕ}
    {rnd : ℕ → BitVec 512 × BitVec 512} {pubs : List PublicKey} {i : ℕ} {d d' : RingDraft}
    (h : C.generateRingLoop H imageUnp secIndex rnd pubs i d = some d') (j : ℕ)
    (hj : j < pubs.length) (hne : i + j ≠ secIndex) : C.checkKey pubs[j] = true := by
  induction pubs generalizing i d j with
  | nil => simp at hj
  | cons pub pubs ih =>
    rw [CryptoOps.generateRingLoop] at h
    by_cases hi : i = secIndex
    · rw [if_pos hi] at h
      cases j with
      | zero => omega
      | succ j => exact ih h j (by simpa using hj) (by omega)
    · rw [if_neg hi] at h
      cases hpub : C.frombytesVartime pub with
      | none =>
        rw [hpub] at h
        cases h
      | some P =>
        rw [hpub] at h
        cases j with
        | zero =>
          show (C.frombytesVartime pub).isSome = true
          rw [hpub]
          rfl
        | succ j => exact ih h j (by simpa using hj) (by omega)

theorem input_accepted {src : TxSourceEntry} {input : SecretKey × TxinToKey} {prefixHash : Hash}
    {rnd : ℕ → BitVec 512 × BitVec 512} {sigs : List Signature}
    (hspend : C.secretKeyToPublicKey keys.spendSecretKey =
      some keys.keys.accountAddress.spendPublicKey)
    (hinput : constructInput E C keys src = some input)
    (hsigs : C.generateRingSignature E.cnFastHash prefixHash input.2.kImage
      (src.outputs.map Prod.snd) input.1 src.realOutput rnd = some sigs) :
    sigs.length = src.outputs.length ∧ C.validateKeyImage input.2.kImage = true ∧
      C.checkRingSignature E.cnFastHash prefixHash input.2.kImage (src.outputs.map Prod.snd) sigs =
        true := by
  obtain ⟨hreal, eph, himg, hsec, hpub, -, -⟩ := constructInput_eq_some C hinput
  obtain ⟨hpair, himage⟩ := generateKeyImageHelper_keys C hspend himg
  rw [hsec] at hpair
  obtain ⟨hlt, -⟩ := C.secretKeyToPublicKey_eq_some.mp hpair
  have hindex : src.realOutput < (src.outputs.map Prod.snd).length := by simpa using hreal
  have hget : (src.outputs.map Prod.snd)[src.realOutput] = eph.pub := by
    rw [List.getElem_map, hpub]
  have hkimage : input.2.kImage = C.generateKeyImage E.cnFastHash
      (src.outputs.map Prod.snd)[src.realOutput] input.1 := by
    rw [hget, ← hsec]
    exact himage
  -- no key of the ring makes the loop abort, and the real one is derived
  have hkeys : ∀ pub ∈ src.outputs.map Prod.snd, C.checkKey pub = true := by
    intro pub hpubmem
    obtain ⟨j, hj, rfl⟩ := List.getElem_of_mem hpubmem
    by_cases hjreal : j = src.realOutput
    · subst hjreal
      obtain ⟨-, hbytes⟩ := C.secretKeyToPublicKey_eq_some.mp hpair
      rw [hget, ← hbytes, CryptoOps.checkKey, C.frombytes_tobytes]
      rfl
    · unfold CryptoOps.generateRingSignature at hsigs
      cases himageUnp : C.frombytesVartime input.2.kImage with
      | none =>
        rw [himageUnp] at hsigs
        cases hsigs
      | some imageUnp =>
        rw [himageUnp] at hsigs
        obtain ⟨d, hd, -⟩ := Option.map_eq_some_iff.mp hsigs
        exact generateRingLoop_keys C hd j hj (by omega)
  have hlen : sigs.length = (src.outputs.map Prod.snd).length := by
    have himageUnp := C.frombytes_generateKeyImage E.cnFastHash eph.pub hlt
    rw [hkimage, hget] at hsigs
    obtain ⟨ms, hms⟩ := C.ringMembers_isSome E.cnFastHash _ hkeys
    rw [C.generateRingSignature_eq E.cnFastHash input.1 rnd himageUnp hms hindex] at hsigs
    rw [← Option.some.inj hsigs]
    simp [ofAnswers, prove, answers]
  refine ⟨by simpa using hlen, ?_, ?_⟩
  · rw [hkimage]
    exact C.validate_generateKeyImage E.cnFastHash _ hlt
  · rw [hkimage]
    apply (C.ring_signature_accepted_iff E.cnFastHash prefixHash hindex (by rw [hget]; exact hpair) hkeys
      hlen).mpr
    rw [hkimage] at hsigs
    exact ⟨rnd, hsigs⟩

theorem mapM_cons_eq_some {α β : Type} {f : α → Option β} {a : α} {l : List α} {r : List β}
    (h : (a :: l).mapM f = some r) : ∃ b r', f a = some b ∧ l.mapM f = some r' ∧ r = b :: r' := by
  rw [List.mapM_cons] at h
  cases hb : f a with
  | none =>
    rw [hb] at h
    cases h
  | some b =>
    cases hr : l.mapM f with
    | none =>
      rw [hb, hr] at h
      cases h
    | some r' =>
      rw [hb, hr] at h
      exact ⟨b, r', rfl, rfl, (Option.some.inj h).symm⟩

theorem checkTxInputsGo_accepted {sources : List TxSourceEntry}
    {inputs : List (SecretKey × TxinToKey)} {prefixHash : Hash}
    {rnd : ℕ → ℕ → BitVec 512 × BitVec 512} {i : ℕ} {signatures : List (List Signature)}
    (hspend : C.secretKeyToPublicKey keys.spendSecretKey =
      some keys.keys.accountAddress.spendPublicKey)
    (hoffered : ∀ src ∈ sources, Offered s now height src)
    (hinputs : sources.mapM (constructInput E C keys) = some inputs)
    (hfresh : ∀ input ∈ inputs, s.spentKeys.get input.2.kImage = none)
    (hsigs : signInputs E C prefixHash rnd i sources inputs = some signatures) (m : ℕ) :
    ∃ m', TxIndex.checkTxInputsGo (E.withCrypto C junk) s now height false prefixHash
      (inputs.map fun input => .toKey input.2) signatures m = some m' := by
  induction sources generalizing inputs i signatures m with
  | nil =>
    obtain rfl : [] = inputs := Option.some.inj hinputs
    obtain rfl : [] = signatures := Option.some.inj hsigs
    exact ⟨m, rfl⟩
  | cons src sources ih =>
    obtain ⟨input, inputs', hinput, hinputs', rfl⟩ := mapM_cons_eq_some hinputs
    rw [signInputs] at hsigs
    cases hring : C.generateRingSignature E.cnFastHash prefixHash input.2.kImage
        (src.outputs.map Prod.snd) input.1 src.realOutput (rnd i) with
    | none =>
      rw [hring] at hsigs
      cases hsigs
    | some sigs =>
      rw [hring] at hsigs
      obtain ⟨rest, hrest, rfl⟩ := Option.map_eq_some_iff.mp hsigs
      obtain ⟨hreal, eph, -, -, -, hamount, hoffsets⟩ := constructInput_eq_some C hinput
      have hne : src.outputs ≠ [] := List.ne_nil_of_length_pos (by omega)
      obtain ⟨h, hscan⟩ := scanOutputkeys_offered (hoffered src List.mem_cons_self) hne hamount hoffsets
      obtain ⟨hlen, hvalid, haccepted⟩ := input_accepted C hspend hinput hring
      have hoffsetslen : input.2.keyOffsets.length = src.outputs.length := by
        rw [hoffsets, absoluteOutputOffsetsToRelative_length, List.length_map]
      have hcheck : TxIndex.checkTxInput (E.withCrypto C junk) s now height false prefixHash input.2 sigs =
          some h := by
        unfold TxIndex.checkTxInput
        rw [hscan]
        simp only [List.length_map]
        rw [if_neg (by rw [hoffsetslen]; exact not_not.mpr rfl), if_neg (by decide), if_pos]
        simp only [Env.withCrypto, hvalid, haccepted, hlen, decide_true, Bool.and_self]
      obtain ⟨m', hm'⟩ := ih (fun q hq => hoffered q (List.mem_cons_of_mem _ hq)) hinputs'
        (fun q hq => hfresh q (List.mem_cons_of_mem _ hq)) hrest (max m h)
      refine ⟨m', ?_⟩
      have hnil : input.2.keyOffsets ≠ [] := by
        intro hnil
        rw [hnil, List.length_nil] at hoffsetslen
        exact hne (List.length_eq_zero_iff.mp hoffsetslen.symm)
      rw [List.map_cons, TxIndex.checkTxInputsGo, if_neg hnil,
        if_neg (by rw [hfresh input List.mem_cons_self]; decide), if_neg (by simp)]
      simp only [Bool.false_eq_true, if_false, List.headD_cons, List.tail_cons, hcheck]
      exact hm'

theorem constructTx_eq_some {x : ConstructRun} {sources : List TxSourceEntry}
    {destinations : List TxDestinationEntry} {extra : Blob} {unlockTime : UInt64} {txOutsAttr : UInt8}
    {tx : Transaction} {txkey : Keypair}
    (h : constructTx E C x keys sources destinations extra unlockTime txOutsAttr = some (tx, txkey)) :
    ∃ inputs, sources.mapM (constructInput E C keys) = some inputs ∧
      tx.vin = inputs.map (fun i => .toKey i.2) ∧
      constructOuts E C (x.txkey C).sec txOutsAttr 0 (x.sortByAmount destinations) = some tx.vout ∧
      tx.extra = constructExtra E C x destinations extra unlockTime ∧ txkey = x.txkey C ∧
      signInputs E C (getTransactionHash E tx) x.ring 0 sources inputs = some tx.signatures := by
  unfold constructTx at h
  cases hinputs : sources.mapM (constructInput E C keys) with
  | none =>
    rw [hinputs] at h
    cases h
  | some inputs =>
    rw [hinputs] at h
    cases hvout : constructOuts E C (x.txkey C).sec txOutsAttr 0 (x.sortByAmount destinations) with
    | none =>
      rw [hvout] at h
      cases h
    | some vout =>
      rw [hvout] at h
      simp only at h
      split_ifs at h
      obtain ⟨signatures, hsigs, heq⟩ := Option.map_eq_some_iff.mp h
      obtain ⟨rfl, rfl⟩ := Prod.mk.inj heq
      exact ⟨inputs, rfl, rfl, rfl, rfl, rfl, hsigs⟩

/-- The inputs of a transaction made by `construct_tx` pass `check_tx_inputs` of every node that holds
the rings and has not seen the key images. -/
theorem constructTx_accepted {x : ConstructRun} {sources : List TxSourceEntry}
    {destinations : List TxDestinationEntry} {extra : Blob} {unlockTime : UInt64} {txOutsAttr : UInt8}
    {tx : Transaction} {txkey : Keypair}
    (hspend : C.secretKeyToPublicKey keys.spendSecretKey =
      some keys.keys.accountAddress.spendPublicKey)
    (h : constructTx E C x keys sources destinations extra unlockTime txOutsAttr = some (tx, txkey))
    (hoffered : ∀ src ∈ sources, Offered s now height src)
    (hfresh : ∀ txin, Txin.toKey txin ∈ tx.vin → s.spentKeys.get txin.kImage = none) :
    ∃ m, s.checkTxInputs (E.withCrypto C junk) now height false tx = some m := by
  obtain ⟨inputs, hinputs, hvin, -, -, -, hsigs⟩ := constructTx_eq_some C h
  unfold TxIndex.checkTxInputs
  rw [hvin]
  refine checkTxInputsGo_accepted C junk hspend hoffered hinputs ?_ hsigs 0
  intro input hmem
  apply hfresh
  rw [hvin]
  exact List.mem_map.mpr ⟨input, hmem, rfl⟩

end Accepted
section Found

variable {G : Type} [AddCommGroup G] {E : Env} (C : CryptoOps G) (junk : KeyDerivation × PublicKey)

theorem constructOuts_getElem {txSecKey : SecretKey} {txOutsAttr : UInt8} {i : ℕ}
    {dsts : List TxDestinationEntry} {vout : List TxOut}
    (h : constructOuts E C txSecKey txOutsAttr i dsts = some vout) :
    vout.length = dsts.length ∧ ∀ (j : ℕ) (hj : j < dsts.length), dsts[j].amount ≠ 0 ∧
      (∀ out, vout[j]? = some out →
        constructTxOut E C dsts[j].addr txSecKey (i + j) dsts[j].amount txOutsAttr = some out) := by
  induction dsts generalizing i vout with
  | nil =>
    obtain rfl : [] = vout := Option.some.inj h
    exact ⟨rfl, fun j hj => absurd hj (by simp)⟩
  | cons d dsts ih =>
    rw [constructOuts] at h
    split_ifs at h with hamount
    cases hout : constructTxOut E C d.addr txSecKey i d.amount txOutsAttr with
    | none =>
      rw [hout] at h
      cases h
    | some out =>
      rw [hout] at h
      obtain ⟨rest, hrest, rfl⟩ := Option.map_eq_some_iff.mp h
      obtain ⟨hlen, hall⟩ := ih hrest
      refine ⟨by rw [List.length_cons, List.length_cons, hlen], ?_⟩
      intro j hj
      cases j with
      | zero =>
        refine ⟨hamount, fun o ho => ?_⟩
        obtain rfl : out = o := Option.some.inj ho
        exact hout
      | succ j =>
        obtain ⟨hpos, hget⟩ := hall j (by simpa using hj)
        refine ⟨hpos, fun o ho => ?_⟩
        rw [← Nat.add_assoc, Nat.add_right_comm]
        exact hget o ho

/-- An output made for an address, at its position: the owner recognises it with the transaction's
public key, and the key image helper gives the pair of its keys. -/
theorem constructTxOut_found {ack : AccountBase} (howned : ack.Owned C) {txkey : Keypair}
    (htxkey : C.secretKeyToPublicKey txkey.sec = some txkey.pub) {dest : DestinationAddress}
    (hdest : dest.toAccountPublicAddress = ack.keys.accountAddress) (hswap : dest.isSwapAddress = false)
    {i : ℕ} {amount : UInt64} {txOutsAttr : UInt8} {out : TxOut}
    (h : constructTxOut E C dest txkey.sec i amount txOutsAttr = some out) :
    ∃ otk eph, out = ⟨amount, .toKey otk⟩ ∧ isOutToAcc E C junk ack.keys otk txkey.pub i = true ∧
      generateKeyImageHelper E C ack txkey.pub i =
        some (eph, C.generateKeyImage E.cnFastHash eph.pub eph.sec) ∧
      eph.pub = otk.key ∧ C.secretKeyToPublicKey eph.sec = some eph.pub := by
  obtain ⟨derivation, hderivation⟩ :
      ∃ d, C.generateKeyDerivation ack.keys.accountAddress.viewPublicKey txkey.sec = some d :=
    ⟨_, generateKeyDerivation_eq howned.view (C.secretKeyToPublicKey_eq_some.mp htxkey).1⟩
  have hsymm : C.generateKeyDerivation txkey.pub ack.keys.viewSecretKey = some derivation := by
    rw [derivation_symm htxkey howned.view, hderivation]
  obtain ⟨key, hkey, hpair⟩ := derived_keys E.cnFastHash howned.spend derivation i
  have hview : dest.viewPublicKey = ack.keys.accountAddress.viewPublicKey := by rw [← hdest]
  have hspend : dest.spendPublicKey = ack.keys.accountAddress.spendPublicKey := by rw [← hdest]
  unfold constructTxOut at h
  rw [if_neg (by rw [hswap]; decide), hview, hspend] at h
  simp only [hderivation, hkey, Option.bind_eq_bind, Option.bind_some, Option.pure_def,
    Option.some.injEq] at h
  refine ⟨⟨key, txOutsAttr⟩, ⟨key, deriveSecretKey E.cnFastHash derivation i ack.spendSecretKey⟩,
    h.symm, ?_, ?_, rfl, hpair⟩
  · unfold isOutToAcc
    simp only [hsymm, Option.getD_some, hkey]
    exact beq_self_eq_true key
  · unfold generateKeyImageHelper
    simp only [hsymm, hkey, Option.bind_eq_bind, Option.bind_some, Option.pure_def]

theorem mem_lookupAccOuts {E' : Env} {acc : AccountKeys} {txPubKey : PublicKey} {i : ℕ}
    {vout : List TxOut} {outs : List ℕ} {money : UInt64}
    (h : lookupAccOuts E' acc txPubKey i vout = some (outs, money)) {j : ℕ} {amount : UInt64}
    {otk : TxoutToKey} (hout : vout[j]? = some ⟨amount, .toKey otk⟩)
    (hacc : E'.isOutToAcc acc otk txPubKey (i + j) = true) : i + j ∈ outs := by
  induction vout generalizing i j outs money with
  | nil => simp at hout
  | cons o vout ih =>
    rw [lookupAccOuts] at h
    cases htarget : o.target with
    | toScript _ =>
      rw [htarget] at h
      cases h
    | toScripthash _ =>
      rw [htarget] at h
      cases h
    | toKey k =>
      rw [htarget] at h
      obtain ⟨r, hr, heq⟩ := Option.map_eq_some_iff.mp h
      cases j with
      | zero =>
        obtain rfl : o = _ := Option.some.inj hout
        obtain rfl := TxoutTarget.toKey.inj htarget
        rw [Nat.add_zero] at hacc ⊢
        rw [if_pos hacc] at heq
        rw [← (Prod.mk.inj heq).1]
        exact List.mem_cons_self
      | succ j =>
        have hmem := ih hr hout (by rwa [Nat.add_assoc, Nat.add_comm 1])
        rw [Nat.add_assoc, Nat.add_comm 1] at hmem
        split_ifs at heq
        · rw [← (Prod.mk.inj heq).1]
          exact List.mem_cons_of_mem _ hmem
        · rw [heq] at hmem
          exact hmem

theorem lookupAccOuts_isSome (E' : Env) (acc : AccountKeys) (txPubKey : PublicKey) (i : ℕ)
    {vout : List TxOut} (h : ∀ o ∈ vout, ∃ k, o.target = .toKey k) :
    ∃ r, lookupAccOuts E' acc txPubKey i vout = some r := by
  induction vout generalizing i with
  | nil => exact ⟨_, rfl⟩
  | cons o vout ih =>
    obtain ⟨k, hk⟩ := h o List.mem_cons_self
    obtain ⟨r, hr⟩ := ih (i + 1) fun q hq => h q (List.mem_cons_of_mem _ hq)
    rw [lookupAccOuts, hk]
    simp only [hr, Option.map_some]
    exact ⟨_, rfl⟩

theorem constructTxOut_toKey {dest : DestinationAddress} {sec : SecretKey} {i : ℕ} {amount : UInt64}
    {attr : UInt8} {out : TxOut} (h : constructTxOut E C dest sec i amount attr = some out) :
    ∃ k, out.target = .toKey k := by
  unfold constructTxOut at h
  split_ifs at h
  · rw [← Option.some.inj h]
    exact ⟨_, rfl⟩
  · obtain ⟨d, -, h⟩ := Option.bind_eq_some_iff.mp h
    obtain ⟨key, -, h⟩ := Option.bind_eq_some_iff.mp h
    rw [← Option.some.inj h]
    exact ⟨_, rfl⟩

theorem parse_entries {tx : Transaction} {l : List ExtraEntry} (hwell : ExtraEntry.WellFormed l)
    (htx : tx.extra = l.flatMap ExtraEntry.bytes) :
    parseAndValidateTxExtra E tx = some (ExtraEntry.record ExtraReader.emptyInfo l) := by
  have hagrees := ExtraReader.parseAndValidateTxExtra_agrees E tx
  rw [htx, ExtraReader.readExtra_entries hwell] at hagrees
  exact hagrees

theorem wellFormed_pubkey (key : PublicKey) : ExtraEntry.WellFormed [.pubkey key] := by
  constructor
  · exact le_rfl
  · exact Nat.zero_le 1
  · intro data h
    cases h

theorem wellFormed_userData {data : Blob} (h : data.length ≤ 255) (key : PublicKey) :
    ExtraEntry.WellFormed [.userData data, .pubkey key] := by
  constructor
  · exact le_rfl
  · exact le_rfl
  · intro d hd
    obtain rfl := List.mem_singleton.mp hd
    exact h

theorem encryptUserDataBuff_length (tmp : Vector UInt8 64) (swapPub : PublicKey)
    (sk : SecretKey) (data : Blob) :
    (encryptUserDataBuff E C tmp swapPub sk data).length = data.length := by
  unfold encryptUserDataBuff
  cases C.generateKeyDerivation swapPub sk with
  | none => rfl
  | some derivation => exact Chacha8.doChachaCrypt_length E tmp _ _

theorem swapinfoBuff_none {paymentId : Blob} {acc : DestinationAddress}
    (h : acc.isSwapAddress = false ∨ 128 ≤ paymentId.length) (hid : paymentId.length < 250)
    (hdata : (userDataOf E paymentId acc).length < 250) :
    swapinfoBuff (userDataOf E paymentId acc) = none := by
  unfold swapinfoBuff getSwapinfoEncryptedBuffFromUserData
  by_cases hnil : userDataOf E paymentId acc = []
  · rw [if_pos hnil]
    rfl
  · have hpos := List.length_pos_iff.mpr hnil
    obtain ⟨n, hn⟩ : ∃ n, (userDataOf E paymentId acc).length + 1 = 2 + n :=
      ⟨(userDataOf E paymentId acc).length - 1, by omega⟩
    have hwalk := walk_noEntry h hid hdata
    rw [if_neg hnil, hn, walk_fuel sizeOfByte_char (by rw [hwalk]; simp), hwalk]
    rfl

theorem constructExtra_plain (x : ConstructRun) {data : Blob} {destinations : List TxDestinationEntry}
    {unlockTime : UInt64} (hplain : isSwapTx E (blankTx unlockTime (ExtraEntry.userData data).bytes)
      destinations = false) :
    constructExtra E C x destinations (ExtraEntry.userData data).bytes unlockTime =
      ([ExtraEntry.userData data] ++ [ExtraEntry.pubkey (x.txkey C).pub]).flatMap ExtraEntry.bytes := by
  unfold constructExtra
  rw [hplain]
  simp

/-- What the extra says when it was made by `set_payment_id_and_swap_addr_to_tx_extra`: the public
key, and the user data with the swap address, which is encrypted when a destination is one and the
entry is found behind the payment id. -/
theorem constructExtra_entries (x : ConstructRun) {paymentId extra : Blob} {acc : DestinationAddress}
    (hset : setPaymentIdAndSwapAddrToTxExtra E [] paymentId acc = some extra)
    (destinations : List TxDestinationEntry) (unlockTime : UInt64) :
    ∃ l, ExtraEntry.WellFormed (l ++ [.pubkey (x.txkey C).pub]) ∧
      constructExtra E C x destinations extra unlockTime =
        (l ++ [.pubkey (x.txkey C).pub]).flatMap ExtraEntry.bytes ∧
      (acc.isSwapAddress = true → destinations.any (fun d => d.addr.isSwapAddress) = true →
        l = if paymentId.length < 128 then
          [.userData (swapUserData paymentId (encryptUserDataBuff E C x.tmp x.swapPub (x.txkey C).sec
            (swapAddressExtraEntry E acc.toAccountPublicAddress)))]
        else [.userData (userDataOf E paymentId acc)]) := by
  obtain ⟨hidlen, hdatalen, tei, htei, hblob⟩ := @parse_set E extra paymentId acc
    (blankTx unlockTime extra) [] [] (by simp) rfl hset
    (show (blankTx unlockTime extra).extra = extra ++ [] from (List.append_nil _).symm)
  rw [set_eq, List.nil_append] at hset
  split_ifs at hset with hlong hnil
  · -- no user data, so it is no swap transaction
    obtain rfl := Option.some.inj hset
    have hplain : isSwapTx E (blankTx unlockTime []) destinations = false := by
      unfold isSwapTx
      rw [htei]
      simp [hblob, hnil]
    refine ⟨[], wellFormed_pubkey _, ?_, ?_⟩
    · unfold constructExtra
      rw [hplain]
      simp
    · intro hswap
      rw [userDataOf_swap E paymentId hswap] at hnil
      exact absurd hnil (swapUserData_ne_nil _ _)
  obtain rfl := Option.some.inj hset
  by_cases hfound : acc.isSwapAddress = true ∧ paymentId.length < 128
  · obtain ⟨hswap, hshort⟩ := hfound
    have hentry := @swapAddressExtraEntry_length E acc.toAccountPublicAddress
    have hcrypt := encryptUserDataBuff_length (E := E) C x.tmp x.swapPub (x.txkey C).sec
      (swapAddressExtraEntry E acc.toAccountPublicAddress)
    have hlen := swapUserData_length paymentId (swapAddressExtraEntry E acc.toAccountPublicAddress)
    have hlen' := swapUserData_length paymentId (encryptUserDataBuff E C x.tmp x.swapPub
      (x.txkey C).sec (swapAddressExtraEntry E acc.toAccountPublicAddress))
    rw [userDataOf_swap E paymentId hswap] at hdatalen hblob htei ⊢
    cases hany : destinations.any (fun d => d.addr.isSwapAddress) with
    | false =>
      refine ⟨[.userData (swapUserData paymentId
        (swapAddressExtraEntry E acc.toAccountPublicAddress))], wellFormed_userData (by omega) _,
        constructExtra_plain C x ?_, by simp⟩
      unfold isSwapTx
      simp [hany]
    | true =>
      refine ⟨_, ?_, ?_, fun _ _ => (if_pos hshort).symm⟩
      · exact wellFormed_userData (by omega) _
      · have hswaptx : isSwapTx E (blankTx unlockTime (ExtraEntry.userData (swapUserData paymentId
            (swapAddressExtraEntry E acc.toAccountPublicAddress))).bytes) destinations = true := by
          unfold isSwapTx
          rw [htei]
          simp [hany, hblob, swapUserData_ne_nil, swapinfoBuff_swapUserData hshort hentry]
        unfold constructExtra
        rw [hswaptx, if_pos rfl, encryptUserDataWithTxSecretKey,
          encryptExtraGo_userData _ hshort hentry (by rw [hcrypt, hentry]) (by omega)]
        simp
  · -- the loop over the user data finds nothing, and the extra is not encrypted
    have hnone : acc.isSwapAddress = false ∨ 128 ≤ paymentId.length := by
      rcases not_and_or.mp hfound with h | h
      · exact .inl (Bool.eq_false_iff.mpr h)
      · exact .inr (Nat.not_lt.mp h)
    refine ⟨[.userData (userDataOf E paymentId acc)], wellFormed_userData (by omega) _,
      constructExtra_plain C x ?_, fun hswap _ => ?_⟩
    · unfold isSwapTx
      rw [htei]
      simp [hblob, swapinfoBuff_none hnone hidlen hdatalen]
    · rw [if_neg fun hshort => hfound ⟨hswap, hshort⟩]

theorem record_pubkey {l : List ExtraEntry} {key : PublicKey} :
    (ExtraEntry.record ExtraReader.emptyInfo (l ++ [.pubkey key])).txPubKey = key := by
  unfold ExtraEntry.record
  rw [List.filterMap_append, ExtraReader.getLastD_append]
  rfl

/-- Every output that `construct_tx` makes for an address is found by its owner: the transaction's
public key is read from the extra, `lookup_acc_outs` lists the position, and the key image helper
gives the secret key of the output, with its key image. -/
theorem constructTx_found {x : ConstructRun} {keys : AccountBase} {sources : List TxSourceEntry}
    {destinations : List TxDestinationEntry} {extra paymentId : Blob} {unlockTime : UInt64}
    {txOutsAttr : UInt8} {tx : Transaction} {txkey : Keypair} {acc : DestinationAddress}
    (h : constructTx E C x keys sources destinations extra unlockTime txOutsAttr = some (tx, txkey))
    (hset : setPaymentIdAndSwapAddrToTxExtra E [] paymentId acc = some extra)
    {ack : AccountBase} (howned : ack.Owned C) :
    ∃ tei outs money, parseAndValidateTxExtra (E.withCrypto C junk) tx = some tei ∧
      lookupAccOuts (E.withCrypto C junk) ack.keys tei.txPubKey 0 tx.vout = some (outs, money) ∧
      ∀ (j : ℕ) (hj : j < (x.sortByAmount destinations).length),
        (x.sortByAmount destinations)[j].addr.toAccountPublicAddress = ack.keys.accountAddress →
        (x.sortByAmount destinations)[j].addr.isSwapAddress = false →
        j ∈ outs ∧ ∃ otk eph,
          tx.vout[j]? = some ⟨(x.sortByAmount destinations)[j].amount, .toKey otk⟩ ∧
          generateKeyImageHelper E C ack tei.txPubKey j =
            some (eph, C.generateKeyImage E.cnFastHash otk.key eph.sec) ∧
          eph.pub = otk.key ∧ C.secretKeyToPublicKey eph.sec = some otk.key := by
  obtain ⟨inputs, -, -, hvout, hextra, rfl, -⟩ := constructTx_eq_some C h
  obtain ⟨l, hwell, hbytes, -⟩ := constructExtra_entries C x hset destinations unlockTime
  have hparse := parse_entries (E := E.withCrypto C junk) hwell (hextra.trans hbytes)
  obtain ⟨hlen, hall⟩ := constructOuts_getElem C hvout
  -- all outputs are made to keys
  have hkeys : ∀ o ∈ tx.vout, ∃ k, o.target = .toKey k := by
    intro o ho
    obtain ⟨j, hj, rfl⟩ := List.getElem_of_mem ho
    obtain ⟨-, hget⟩ := hall j (hlen ▸ hj)
    exact constructTxOut_toKey C (hget _ (List.getElem?_eq_getElem hj))
  obtain ⟨⟨outs, money⟩, hlook⟩ := lookupAccOuts_isSome (E.withCrypto C junk) ack.keys
    (x.txkey C).pub 0 hkeys
  refine ⟨_, outs, money, hparse, ?_, ?_⟩
  · rw [record_pubkey]
    exact hlook
  · intro j hj hdest hswap
    have hjv : j < tx.vout.length := hlen ▸ hj
    obtain ⟨-, hget⟩ := hall j hj
    have hout := hget _ (List.getElem?_eq_getElem hjv)
    rw [Nat.zero_add] at hout
    obtain ⟨otk, eph, heq, hacc, himg, hpub, hpair⟩ := constructTxOut_found C junk howned (txkey_pair x)
      hdest hswap hout
    have hat : tx.vout[j]? = some ⟨(x.sortByAmount destinations)[j].amount, .toKey otk⟩ := by
      rw [List.getElem?_eq_getElem hjv, heq]
    rw [record_pubkey]
    refine ⟨?_, otk, eph, hat, ?_, hpub, ?_⟩
    · have hmem := mem_lookupAccOuts hlook hat (by rw [Nat.zero_add]; exact hacc)
      rwa [Nat.zero_add] at hmem
    · rw [← hpub]
      exact himg
    · rw [← hpub]
      exact hpair

/-- The holder of the swap key reads back the swap address that the sender put into the extra, and the
payment id next to it, exactly when the payment id is shorter than 128 bytes: behind a longer one the
entry is not found, neither to encrypt it nor to read it. -/
theorem swap_info_roundTrip_iff {x : ConstructRun} {keys : AccountBase} {sources : List TxSourceEntry}
    {destinations : List TxDestinationEntry} {extra paymentId : Blob} {unlockTime : UInt64}
    {txOutsAttr : UInt8} {tx : Transaction} {txkey : Keypair} {acc : DestinationAddress}
    {swapSec : SecretKey} (tmp : Vector UInt8 64)
    (hswapkey : C.secretKeyToPublicKey swapSec = some x.swapPub)
    (hset : setPaymentIdAndSwapAddrToTxExtra E [] paymentId acc = some extra)
    (hacc : acc.isSwapAddress = true)
    (hany : destinations.any (fun d => d.addr.isSwapAddress) = true)
    (h : constructTx E C x keys sources destinations extra unlockTime txOutsAttr = some (tx, txkey)) :
    getSwapInfoFromTxExtra E C tmp tx swapSec = some acc ∧
      getPaymentIdFromTxExtra E tx = (if paymentId = [] then none else some paymentId) ↔
        paymentId.length < 128 := by
  obtain ⟨inputs, -, -, -, hextra, rfl, -⟩ := constructTx_eq_some C h
  obtain ⟨hidlen, hdatalen, -⟩ := @parse_set E extra paymentId acc (blankTx unlockTime extra) [] []
    (by simp) rfl hset
    (show (blankTx unlockTime extra).extra = extra ++ [] from (List.append_nil _).symm)
  obtain ⟨l, hwell, hbytes, hl⟩ := constructExtra_entries C x hset destinations unlockTime
  obtain rfl := hl hacc hany
  have hparse := parse_entries (E := E) hwell (hextra.trans hbytes)
  by_cases hid : paymentId.length < 128
  · refine iff_of_true ?_ hid
    rw [if_pos hid] at hparse
    have hentry := @swapAddressExtraEntry_length E acc.toAccountPublicAddress
    -- both sides derive one key
    obtain ⟨derivation, hderivation⟩ :
        ∃ d, C.generateKeyDerivation x.swapPub (x.txkey C).sec = some d :=
      ⟨_, generateKeyDerivation_eq hswapkey (C.secretKeyToPublicKey_eq_some.mp (txkey_pair x)).1⟩
    have hsymm : C.generateKeyDerivation (x.txkey C).pub swapSec = some derivation := by
      rw [derivation_symm (txkey_pair x) hswapkey, hderivation]
    have hcrypt : encryptUserDataBuff E C x.tmp x.swapPub (x.txkey C).sec
        (swapAddressExtraEntry E acc.toAccountPublicAddress) = Chacha8.doChachaCrypt E x.tmp
          (swapAddressExtraEntry E acc.toAccountPublicAddress) (hashBytes derivation) := by
      unfold encryptUserDataBuff
      rw [hderivation]
    have hlen : (Chacha8.doChachaCrypt E x.tmp (swapAddressExtraEntry E acc.toAccountPublicAddress)
        (hashBytes derivation)).length = 68 := by
      rw [Chacha8.doChachaCrypt_length E x.tmp, hentry]
    rw [hcrypt] at hparse
    obtain ⟨hback, hvalid⟩ := readSwapAddressExtraEntry_entry E acc.toAccountPublicAddress
    constructor
    · have hread := getSwapInfo_of_read E C hparse (swapUserData_ne_nil _ _)
        (swapinfoBuff_swapUserData hid hlen) hlen hsymm
        (Chacha8.doChachaCrypt_doChachaCrypt E x.tmp tmp _ _) hentry hvalid
      rw [hread, hback, ← hacc]
    · unfold getPaymentIdFromTxExtra
      rw [hparse, Option.bind_some]
      show getPaymentIdFromUserData (swapUserData paymentId _) = _
      by_cases hnil : paymentId = []
      · rw [if_pos hnil, hnil]
        rfl
      · rw [if_neg hnil]
        unfold swapUserData
        rw [paymentIdEntry_eq hnil hid]
        have hnat := ExtraReader.toNat_length (show paymentId.length ≤ 255 by omega)
        have hsmall : UInt8.ofNat paymentId.length < 128 := by
          rw [UInt8.lt_iff_toNat_lt, hnat]
          exact hid
        simp only [List.cons_append, getPaymentIdFromUserData, if_true, hsmall, hnat, List.take_left']
  · refine iff_of_false (fun hread => ?_) hid
    rw [if_neg hid] at hparse
    have hnone := @swapinfoBuff_none E paymentId acc (.inr (Nat.not_lt.mp hid)) hidlen hdatalen
    have hlost : getSwapInfoFromTxExtra E C tmp tx swapSec = none := getSwapInfo_of_none E C hparse hnone
    rw [hlost] at hread
    cases hread.1

end Found

/-- A wallet that makes its transactions with `construct_tx` gets the inputs it asks for. -/
theorem buildsInputs_constructTx {G : Type} [AddCommGroup G] (E : WalletEnv) (C : CryptoOps G)
    (junk : KeyDerivation × PublicKey) (junkKeys : PublicKey × KeyImage) (runs : ℕ → ConstructRun)
    (x : SpendEnv) (w : Wallet2) :
    Wallet2.BuildsInputs (E.withCrypto C junk junkKeys)
      { x with constructTx := fun n => constructTxRes E.toEnv C (runs n) } w := by
  intro n arg res hres
  have h : constructTxRes E.toEnv C (runs n) w.account arg = some res := hres
  unfold constructTxRes at h
  cases hmake : constructTx E.toEnv C (runs n) w.account arg.sources arg.splittedDsts arg.extra
      arg.unlockTime arg.txOutsAttr with
  | none =>
    rw [hmake] at h
    cases h
  | some made =>
    rw [hmake] at h
    obtain ⟨images, -, rfl⟩ := Option.map_eq_some_iff.mp h
    obtain ⟨inputs, hinputs, hvin, -⟩ := constructTx_eq_some C hmake
    show made.1.vin = _
    rw [hvin]
    clear hvin hmake h hres
    generalize arg.sources = sources at hinputs
    induction sources generalizing inputs with
    | nil =>
      obtain rfl : [] = inputs := Option.some.inj hinputs
      rfl
    | cons src sources ih =>
      obtain ⟨input, inputs', hinput, hinputs', rfl⟩ := mapM_cons_eq_some hinputs
      obtain ⟨-, eph, himg, -, -, hamount, hoffsets⟩ := constructInput_eq_some C hinput
      rw [List.map_cons, List.map_cons, ih inputs' hinputs']
      apply congrArg (· :: _)
      unfold Wallet2.inputFor WalletEnv.withCrypto
      simp only [himg, Option.map_some, Option.getD_some, ← hamount, ← hoffsets]

/-- The derivations of different positions hash to different scalars. -/
def sampleCryptoEnv : Env :=
  { sampleEnv with
    cnFastHash := fun data => if data.length = 33 then 5 + (data.getD 32 0).toNat else sampleHash 5 data }

def sampleOwner : AccountBase := ⟨⟨⟨samplePub, samplePub⟩, sampleSec⟩, sampleSec, 0⟩

theorem sampleOwner_owned : sampleOwner.Owned sampleOps := ⟨samplePub_eq, samplePub_eq⟩

/-- The one-time key of an output at a position of a transaction with the key `samplePub`. -/
def sampleOneTimeKey (i : ℕ) : PublicKey :=
  ((generateKeyImageHelper sampleCryptoEnv sampleOps sampleOwner samplePub i).map fun r => r.1.pub).getD 0

/-- An index with two outputs of the owner, and one of somebody else. -/
def sampleOutputIndex : TxIndex where
  transactions := ((∅ : Map Hash TransactionChainEntry).set 9
    { tx := { emptyTransaction with
        vout := [⟨100, .toKey ⟨sampleOneTimeKey 0, 0⟩⟩, ⟨100, .toKey ⟨sampleOneTimeKey 1, 0⟩⟩] }
      keeperBlockHeight := 0, globalOutputIndexes := [0, 2], spentFlags := [false, false] }).set 8
    { tx := { emptyTransaction with vout := [⟨100, .toKey ⟨samplePub, 0⟩⟩] }
      keeperBlockHeight := 0, globalOutputIndexes := [1], spentFlags := [false] }
  spentKeys := ∅
  outputs := fun amount => if amount = 100 then [(9, 0), (8, 0), (9, 1)] else []

/-- The owner's outputs, each with that of somebody else. -/
def sampleSources : List TxSourceEntry :=
  [⟨[(0, sampleOneTimeKey 0), (1, samplePub)], 0, samplePub, 0, 100, 0⟩,
    ⟨[(1, samplePub), (2, sampleOneTimeKey 1)], 1, samplePub, 1, 100, 0⟩]

def sampleRun : ConstructRun where
  txKey := 2
  ring _ _ := (3, 4)
  tmp := Vector.replicate 64 0
  swapPub := samplePub
  sortByAmount l := l

/-- The call that pays `destinations` from the outputs. -/
def samplePayment (destinations : List TxDestinationEntry) (extra : Blob) :
    Option (Transaction × Keypair) :=
  constructTx sampleCryptoEnv sampleOps sampleRun sampleOwner sampleSources destinations extra 0 0

def sampleToOwner : TxDestinationEntry := ⟨60, { toAccountPublicAddress := ⟨samplePub, samplePub⟩ }⟩

theorem samplePayment_made : ((setPaymentIdAndSwapAddrToTxExtra sampleCryptoEnv [] [7]
    sampleSwapAddress).bind fun extra =>
      samplePayment [⟨40, sampleSwapAddress⟩, sampleToOwner] extra).isSome = true := by
  decide +kernel

theorem sampleSources_offered : ∀ src ∈ sampleSources, Offered sampleOutputIndex 0 100 src := by
  have hfound (txin : TxinToKey) (hamount : txin.amount = 100) (hlen : txin.keyOffsets.length = 2)
      (o : UInt64 × PublicKey) (ho : o ∈ [(0, sampleOneTimeKey 0), (1, samplePub), (2, sampleOneTimeKey 1)]) :
      ∃ h, sampleOutputIndex.scanOutputkey 0 100 txin o.1 = some (o.2, h) := by
    refine ⟨0, ?_⟩
    unfold TxIndex.scanOutputkey
    rw [hamount, hlen]
    fin_cases ho <;> decide +kernel
  intro src hsrc
  fin_cases hsrc
  · refine ⟨by decide, fun o ho txin hamount hlen => hfound txin hamount hlen o ?_⟩
    fin_cases ho <;> simp
  · refine ⟨by decide, fun o ho txin hamount hlen => hfound txin hamount hlen o ?_⟩
    fin_cases ho <;> simp

/-- A wallet's request for such a payment. -/
def samplePaymentArg (extra : Blob) : CreateTxArg where
  spendPubKey := samplePub
  sources := sampleSources
  splittedDsts := [⟨40, sampleSwapAddress⟩, sampleToOwner]
  extra := extra
  unlockTime := 0
  txOutsAttr := 0
  changeAmount := 0
  recipients := [sampleSwapAddress]
  dust := 0

theorem samplePaymentArg_made : ((setPaymentIdAndSwapAddrToTxExtra sampleCryptoEnv [] [7]
    sampleSwapAddress).bind fun extra => constructTxRes sampleCryptoEnv sampleOps sampleRun sampleOwner
      (samplePaymentArg extra)).isSome = true := by
  decide +kernel

theorem constructTx_accepted_sample : ∃ extra tx,
    samplePayment [⟨40, sampleSwapAddress⟩, sampleToOwner] extra = some tx ∧
    (∃ m, sampleOutputIndex.checkTxInputs (sampleCryptoEnv.withCrypto sampleOps (0, 0)) 0 100 false tx.1 =
      some m) ∧
    tx.1.vin = sampleSources.map (Wallet2.inputFor ({ sampleWalletEnv with
      toEnv := sampleCryptoEnv }.withCrypto sampleOps (0, 0) (0, 0)) sampleOwner) := by
  obtain ⟨res, hres⟩ := Option.isSome_iff_exists.mp samplePaymentArg_made
  obtain ⟨extra, -, hres⟩ := Option.bind_eq_some_iff.mp hres
  have hvin := buildsInputs_constructTx { sampleWalletEnv with toEnv := sampleCryptoEnv } sampleOps
    (0, 0) (0, 0) (fun _ => sampleRun) Wallet2.sampleSpendEnv
    { sampleWallet false with account := sampleOwner } 0 (samplePaymentArg extra) res hres
  unfold constructTxRes at hres
  split at hres
  · cases hres
  · next tx txkey htx =>
    obtain ⟨images, -, rfl⟩ := Option.map_eq_some_iff.mp hres
    refine ⟨extra, (tx, txkey), htx, constructTx_accepted sampleOps (0, 0) sampleOwner_owned.spend htx
      sampleSources_offered ?_, hvin⟩
    intro txin _
    exact Map.get_empty _

/-- The second output, behind an extra with payment id and swap address. -/
theorem constructTx_found_sample : ∃ extra tx,
    setPaymentIdAndSwapAddrToTxExtra sampleCryptoEnv [] [7] sampleSwapAddress = some extra ∧
    samplePayment [⟨40, sampleSwapAddress⟩, sampleToOwner] extra = some tx ∧
    ∃ tei outs money, parseAndValidateTxExtra (sampleCryptoEnv.withCrypto sampleOps (0, 0)) tx.1 =
      some tei ∧ lookupAccOuts (sampleCryptoEnv.withCrypto sampleOps (0, 0)) sampleOwner.keys
        tei.txPubKey 0 tx.1.vout = some (outs, money) ∧ 1 ∈ outs := by
  obtain ⟨tx, htx⟩ := Option.isSome_iff_exists.mp samplePayment_made
  obtain ⟨extra, hset, htx⟩ := Option.bind_eq_some_iff.mp htx
  obtain ⟨tei, outs, money, hparse, hlook, hall⟩ :=
    constructTx_found sampleOps (0, 0) htx hset sampleOwner_owned
  exact ⟨extra, tx, hset, htx, tei, outs, money, hparse, hlook, (hall 1 (by decide) rfl rfl).1⟩

theorem swap_info_roundTrip_sample : ∃ extra tx,
    setPaymentIdAndSwapAddrToTxExtra sampleCryptoEnv [] [7] sampleSwapAddress = some extra ∧
    samplePayment [⟨40, sampleSwapAddress⟩, sampleToOwner] extra = some tx ∧
    getSwapInfoFromTxExtra sampleCryptoEnv sampleOps (Vector.replicate 64 1) tx.1 sampleSec =
      some sampleSwapAddress ∧
    getPaymentIdFromTxExtra sampleCryptoEnv tx.1 = if ([7] : Blob) = [] then none else some [7] := by
  obtain ⟨tx, htx⟩ := Option.isSome_iff_exists.mp samplePayment_made
  obtain ⟨extra, hset, htx⟩ := Option.bind_eq_some_iff.mp htx
  exact ⟨extra, tx, hset, htx, (swap_info_roundTrip_iff sampleOps _ samplePub_eq hset rfl (by decide)
    htx).mpr (by decide)⟩

end Boolberry
