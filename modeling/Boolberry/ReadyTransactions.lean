import Boolberry.Finality
import Boolberry.MiningRpc
import Boolberry.Verdicts

/-!
# Transactions that are ready to go

`is_transaction_ready_to_go` decides which pool entries go into a block template. It checks the
inputs only if it has not done so before: an entry remembers the highest block its rings use, and
the top block it failed under. Both memories are written here, so this module is about runs in which
entries are also looked at.
-/

namespace Boolberry
open KeyValue TxMemoryPool

namespace TxIndex

/-- The loop of `scan_outputkeys_for_indexes`, with `*pmax_related_block_height` on the way. -/
def scanOutputkeysMax (s : TxIndex) (now height : ℕ) (txin : TxinToKey) :
    List UInt64 → ℕ → Option (List PublicKey) × ℕ
  | [], maxHeight => (some [], maxHeight)
  | i :: l, maxHeight =>
      match scanOutputkey s now height txin i with
      | none => (none, maxHeight)
      | some (key, h) =>
          let r := scanOutputkeysMax s now height txin l (max maxHeight h)
          (r.1.map (key :: ·), r.2)

/-- `check_tx_input` with `*pmax_related_block_height`. -/
def checkTxInputMax (E : Env) (s : TxIndex) (now height : ℕ) (zone : Bool) (txPrefixHash : Hash)
    (txin : TxinToKey) (sig : List Signature) (maxHeight : ℕ) : Bool × ℕ :=
  if s.outputs txin.amount = [] then (false, maxHeight)
  else
    match scanOutputkeysMax s now height txin (relativeOutputOffsetsToAbsolute txin.keyOffsets)
        maxHeight with
    | (none, maxHeight) => (false, maxHeight)
    | (some outputKeys, maxHeight) =>
        if txin.keyOffsets.length ≠ outputKeys.length then (false, maxHeight)
        else if zone then (true, maxHeight)
        else (E.validateKeyImage txin.kImage && decide (sig.length = outputKeys.length) &&
          E.checkRingSignature txPrefixHash txin.kImage outputKeys sig, maxHeight)

/-- The loop of `check_tx_inputs` with `*pmax_used_block_height`. -/
def checkTxInputsMaxGo (E : Env) (s : TxIndex) (now height : ℕ) (zone : Bool) (txPrefixHash : Hash) :
    List Txin → List (List Signature) → ℕ → Bool × ℕ
  | [], signatures, maxHeight => (zone || signatures.isEmpty, maxHeight)
  | .toKey txin :: l, signatures, maxHeight =>
      if txin.keyOffsets = [] then (false, maxHeight)
      else if (s.spentKeys.get txin.kImage).isSome then (false, maxHeight)
      else if !zone && signatures.isEmpty then (false, maxHeight)
      else
        let sig := if zone then [] else signatures.headD []
        let r := checkTxInputMax E s now height zone txPrefixHash txin sig maxHeight
        if r.1 then checkTxInputsMaxGo E s now height zone txPrefixHash l signatures.tail r.2 else r
  | _ :: _, _, maxHeight => (false, maxHeight)

/-- `have_tx_keyimges_as_spent` of the chain; an input of another kind makes it answer `true`. -/
def haveTxKeyimgesAsSpent (s : TxIndex) (tx : Transaction) : Bool :=
  tx.vin.any fun i => match i with
    | .toKey txin => (s.spentKeys.get txin.kImage).isSome
    | _ => true

end TxIndex

/-- `check_tx_inputs(tx, max_used_block_height, max_used_block_id)`: the answer and what the two
references hold behind the call. A failing check leaves the id alone, not the height. -/
def ChainView.checkTxInputsMax (v : ChainView) (index : TxIndex) (tx : Transaction)
    (maxUsedBlockId : Hash) : Bool × ℕ × Hash :=
  let r := TxIndex.checkTxInputsMaxGo v.env index v.now v.blocks.length v.zone
    (getTransactionHash v.env tx) tx.vin tx.signatures 0
  match v.blocks[r.2]? with
  | none => (false, r.2, maxUsedBlockId)
  | some bei => if r.1 then (true, r.2, getBlockHash v.env bei.bl) else (false, r.2, maxUsedBlockId)

/-- The failure an entry remembers is that of a block which is still on the chain. -/
def lastFailedOnChain (E : Env) (n : Node) (txd : TxDetails) : Prop :=
  txd.lastFailedId = getBlockIdByHeight E n txd.lastFailedHeight

instance (E : Env) (n : Node) (txd : TxDetails) : Decidable (lastFailedOnChain E n txd) := by
  unfold lastFailedOnChain
  infer_instance

/-- Check the inputs, and remember how that went; `reason` is for the entry that fails. -/
def recheckInputs (E : Env) (now : ℕ) (n : Node) (txd : TxDetails) (reason : String) :
    Except (String × TxDetails) TxDetails :=
  let r := (n.view E now).checkTxInputsMax n.txs.index txd.tx txd.maxUsedBlockId
  let txd := { txd with maxUsedBlockHeight := r.2.1, maxUsedBlockId := r.2.2 }
  if r.1 then .ok txd
  else
    let lastFailedHeight := n.blocks.length - 1
    .error (reason,
      { txd with lastFailedHeight, lastFailedId := getBlockIdByHeight E n lastFailedHeight })

/-- The part of `is_transaction_ready_to_go` in front of the key images. -/
def readyInputs (E : Env) (now : ℕ) (n : Node) (txd : TxDetails) :
    Except (String × TxDetails) TxDetails :=
  if txd.maxUsedBlockId = nullHash then
    if txd.lastFailedId ≠ nullHash ∧ txd.lastFailedHeight < n.blocks.length ∧
        lastFailedOnChain E n txd then
      .error ("tx is broken for this height", txd)
    else recheckInputs E now n txd "check_tx_inputs() validation failed"
  else if n.blocks.length ≤ txd.maxUsedBlockHeight then
    .error ("max_used_block_height > current_height", txd)
  else if getBlockIdByHeight E n txd.maxUsedBlockHeight ≠ txd.maxUsedBlockId then
    if lastFailedOnChain E n txd then .error ("last_failed_id is still actual", txd)
    else recheckInputs E now n txd "check_tx_inputs() failed(2)"
  else .ok txd

/-- `is_transaction_ready_to_go`: the reason it declines the entry for, if it does, and the entry
behind the call. -/
def isTransactionReadyToGo (E : Env) (now : ℕ) (n : Node) (txd : TxDetails) :
    Option String × TxDetails :=
  match readyInputs E now n txd with
  | .error (reason, txd) => (some reason, txd)
  | .ok txd =>
      if n.txs.index.haveTxKeyimgesAsSpent txd.tx then (some "ki is spent in blockchain", txd)
      else (none, txd)

section Max

variable (E : Env) (s : TxIndex) (now height : ℕ) (zone : Bool) (ph : Hash)

theorem foldl_max_eq (l : List ℕ) (m : ℕ) : l.foldl max m = max m (l.foldl max 0) := by
  induction l generalizing m with
  | nil => simp
  | cons a l ih =>
    rw [List.foldl_cons, ih, List.foldl_cons, ih (max 0 a), Nat.zero_max, max_assoc]

theorem scanOutputkeysMax_eq (txin : TxinToKey) (l : List UInt64) (m : ℕ) :
    match l.mapM (s.scanOutputkey now height txin) with
    | none => (s.scanOutputkeysMax now height txin l m).1 = none
    | some rs => s.scanOutputkeysMax now height txin l m =
        (some (rs.map Prod.fst), (rs.map Prod.snd).foldl max m) := by
  induction l generalizing m with
  | nil => rfl
  | cons i l ih =>
    rw [List.mapM_cons]
    unfold TxIndex.scanOutputkeysMax
    cases hi : s.scanOutputkey now height txin i with
    | none => rfl
    | some q =>
      have ih := ih (max m q.2)
      cases hl : l.mapM (s.scanOutputkey now height txin) with
      | none =>
        rw [hl] at ih
        change Option.map _ _ = none
        rw [ih]
        rfl
      | some rs =>
        rw [hl] at ih
        dsimp only at ih ⊢
        rw [ih]
        rfl

theorem checkTxInputMax_eq (txin : TxinToKey) (sig : List Signature) (m : ℕ) :
    match s.checkTxInput E now height zone ph txin sig with
    | none => (s.checkTxInputMax E now height zone ph txin sig m).1 = false
    | some h => s.checkTxInputMax E now height zone ph txin sig m = (true, max m h) := by
  have hscan := scanOutputkeysMax_eq s now height txin
    (relativeOutputOffsetsToAbsolute txin.keyOffsets) m
  unfold TxIndex.checkTxInput TxIndex.checkTxInputMax TxIndex.scanOutputkeysForIndexes
  by_cases hout : s.outputs txin.amount = []
  · simp only [hout, if_true]
  · simp only [hout, if_false]
    cases hl : (relativeOutputOffsetsToAbsolute txin.keyOffsets).mapM
        (s.scanOutputkey now height txin) with
    | none =>
      rw [hl] at hscan
      dsimp only [Option.map_none] at hscan ⊢
      cases hr : s.scanOutputkeysMax now height txin
          (relativeOutputOffsetsToAbsolute txin.keyOffsets) m with
      | mk keys m' =>
        rw [hr] at hscan
        obtain rfl : keys = none := hscan
        rfl
    | some rs =>
      rw [hl] at hscan
      dsimp only [Option.map_some] at hscan ⊢
      rw [hscan, foldl_max_eq _ m]
      dsimp only
      split_ifs with hlen hzone hsig
      · rfl
      · rfl
      · rw [hsig]
      · simpa using hsig

theorem checkTxInputsMaxGo_eq (vin : List Txin) (sigs : List (List Signature)) (m : ℕ) :
    match s.checkTxInputsGo E now height zone ph vin sigs m with
    | none => (s.checkTxInputsMaxGo E now height zone ph vin sigs m).1 = false
    | some r => s.checkTxInputsMaxGo E now height zone ph vin sigs m = (true, r) := by
  induction vin generalizing sigs m with
  | nil =>
    unfold TxIndex.checkTxInputsGo TxIndex.checkTxInputsMaxGo
    split_ifs with h
    · rw [h]
    · simpa using h
  | cons i l ih =>
    cases i with
    | toKey txin =>
      unfold TxIndex.checkTxInputsGo TxIndex.checkTxInputsMaxGo
      dsimp only
      generalize (if zone = true then [] else sigs.headD []) = sig
      by_cases h1 : txin.keyOffsets = []
      · simp only [h1, if_true]
      by_cases h2 : (s.spentKeys.get txin.kImage).isSome = true
      · simp only [h1, h2, if_true, if_false]
      by_cases h3 : (!zone && sigs.isEmpty) = true
      · simp only [h1, h2, h3, Bool.false_eq_true, if_true, if_false]
      simp only [h1, h2, h3, if_false]
      have hone := checkTxInputMax_eq E s now height zone ph txin sig m
      cases hc : s.checkTxInput E now height zone ph txin sig with
      | none =>
        rw [hc] at hone
        dsimp only at hone ⊢
        simp only [hone, Bool.false_eq_true, if_false]
      | some h =>
        rw [hc] at hone
        dsimp only at hone ⊢
        simp only [hone, if_true]
        exact ih ..
    | gen g => rfl
    | toScript a b c => rfl
    | toScripthash a b c d => rfl

/-- The check answers as the one without references does; a failing one leaves the id. -/
theorem checkTxInputsMax_eq (v : ChainView) (index : TxIndex) (tx : Transaction) (id : Hash) :
    match v.checkTxInputs index tx with
    | none => ∃ m, v.checkTxInputsMax index tx id = (false, m, id)
    | some r => v.checkTxInputsMax index tx id = (true, r) := by
  have hgo := checkTxInputsMaxGo_eq v.env index v.now v.blocks.length v.zone
    (getTransactionHash v.env tx) tx.vin tx.signatures 0
  unfold ChainView.checkTxInputs ChainView.checkTxInputsMax TxIndex.checkTxInputs
  cases hc : index.checkTxInputsGo v.env v.now v.blocks.length v.zone (getTransactionHash v.env tx)
      tx.vin tx.signatures 0 with
  | none =>
    rw [hc] at hgo
    dsimp only at hgo ⊢
    rw [hgo]
    generalize (index.checkTxInputsMaxGo v.env v.now v.blocks.length v.zone
      (getTransactionHash v.env tx) tx.vin tx.signatures 0).2 = m
    cases v.blocks[m]? with
    | none => exact ⟨m, rfl⟩
    | some bei => exact ⟨m, rfl⟩
  | some r =>
    rw [hc] at hgo
    dsimp only at hgo ⊢
    rw [hgo]
    dsimp only
    cases v.blocks[r]? with
    | none => exact ⟨r, rfl⟩
    | some bei => rfl

end Max

/-- The cached pair of the entry is taken at its word: its block is on the chain. -/
structure Trusted (E : Env) (n : Node) (txd : TxDetails) : Prop where
  checked : txd.maxUsedBlockId ≠ nullHash
  below : txd.maxUsedBlockHeight < n.blocks.length
  onChain : getBlockIdByHeight E n txd.maxUsedBlockHeight = txd.maxUsedBlockId

/-- The entry as a check that passes leaves it. -/
def TxDetails.passed (txd : TxDetails) (maxUsed : ℕ × Hash) : TxDetails :=
  { txd with maxUsedBlockHeight := maxUsed.1, maxUsedBlockId := maxUsed.2 }

/-- The entry as a check that fails leaves it: the height is overwritten, the id is not. -/
def TxDetails.failed (E : Env) (n : Node) (txd : TxDetails) (maxHeight : ℕ) : TxDetails :=
  { txd with
    maxUsedBlockHeight := maxHeight
    lastFailedHeight := n.blocks.length - 1
    lastFailedId := getBlockIdByHeight E n (n.blocks.length - 1) }

/-- The failure that is remembered decides: its block is on the chain and the pair is not trusted. -/
structure FailureCounts (E : Env) (n : Node) (txd : TxDetails) : Prop where
  onChain : lastFailedOnChain E n txd
  unchecked : txd.maxUsedBlockId = nullHash →
    txd.lastFailedId ≠ nullHash ∧ txd.lastFailedHeight < n.blocks.length
  stale : txd.maxUsedBlockId ≠ nullHash →
    getBlockIdByHeight E n txd.maxUsedBlockHeight ≠ txd.maxUsedBlockId

/-- The entry is declined because its pair names a block above the chain. -/
structure CachedAbove (n : Node) (txd : TxDetails) : Prop where
  checked : txd.maxUsedBlockId ≠ nullHash
  above : n.blocks.length ≤ txd.maxUsedBlockHeight

section Cases

variable (E : Env) (now : ℕ) (n : Node) (txd : TxDetails)

/-- What a check of the entry comes to. -/
def Rechecked (r : Except (String × TxDetails) TxDetails) : Prop :=
  (∃ maxUsed, (n.view E now).checkTxInputs n.txs.index txd.tx = some maxUsed ∧
    r = .ok (txd.passed maxUsed)) ∨
  (∃ reason m, (n.view E now).checkTxInputs n.txs.index txd.tx = none ∧
    r = .error (reason, txd.failed E n m))

theorem recheckInputs_rechecked (reason : String) :
    Rechecked E now n txd (recheckInputs E now n txd reason) := by
  have hmax := checkTxInputsMax_eq (n.view E now) n.txs.index txd.tx txd.maxUsedBlockId
  unfold Rechecked recheckInputs
  cases hc : (n.view E now).checkTxInputs n.txs.index txd.tx with
  | none =>
    rw [hc] at hmax
    obtain ⟨m, hmax⟩ := hmax
    rw [hmax]
    exact Or.inr ⟨reason, m, rfl, rfl⟩
  | some maxUsed =>
    rw [hc] at hmax
    dsimp only at hmax
    rw [hmax]
    exact Or.inl ⟨maxUsed, rfl, rfl⟩

/-- The pair is trusted, or the entry is declined unseen, or its inputs are checked. -/
theorem readyInputs_cases :
    (Trusted E n txd ∧ readyInputs E now n txd = .ok txd) ∨
    ((CachedAbove n txd ∨ FailureCounts E n txd) ∧
      ∃ reason, readyInputs E now n txd = .error (reason, txd)) ∨
    Rechecked E now n txd (readyInputs E now n txd) := by
  unfold readyInputs
  split_ifs with hnull hfailed habove hstale hcounts
  · exact Or.inr (Or.inl ⟨Or.inr ⟨hfailed.2.2, fun _ => ⟨hfailed.1, hfailed.2.1⟩,
      fun hne => absurd hnull hne⟩, _, rfl⟩)
  · exact Or.inr (Or.inr (recheckInputs_rechecked E now n txd _))
  · exact Or.inr (Or.inl ⟨Or.inl ⟨hnull, habove⟩, _, rfl⟩)
  · exact Or.inr (Or.inl ⟨Or.inr ⟨hcounts, fun heq => absurd heq hnull, fun _ => hstale⟩, _, rfl⟩)
  · exact Or.inr (Or.inr (recheckInputs_rechecked E now n txd _))
  · exact Or.inl ⟨⟨hnull, by omega, not_not.mp hstale⟩, rfl⟩

end Cases

/-- An output as the index finds it: its transaction without signatures, its number there, and the
height of the block that keeps it. -/
structure StoredOutput where
  txId : Hash
  n : ℕ
  tx : TransactionPrefix
  height : ℕ

def TxIndex.outputAt (s : TxIndex) (amount : UInt64) (i : ℕ) : Option StoredOutput :=
  match (s.outputs amount)[i]? with
  | none => none
  | some out => (s.transactions.get out.1).map fun e =>
      ⟨out.1, out.2, e.tx.toTransactionPrefix, e.keeperBlockHeight⟩

/-- The key of an output, if the output may be in the ring of the input. -/
def ringKey (txin : TxinToKey) (o : StoredOutput) : Option PublicKey :=
  match o.tx.vout[o.n]? with
  | none => none
  | some ot =>
      match ot.target with
      | .toKey outtk =>
          if 1 < outtk.mixAttr ∧ txin.keyOffsets.length < outtk.mixAttr.toNat then none
          else if outtk.mixAttr = CURRENCY_TO_KEY_OUT_FORCED_NO_MIX ∧
              txin.keyOffsets.length ≠ 1 then none
          else some outtk.key
      | _ => none

/-- The output an absolute offset of the input names. -/
def TxIndex.ringAt (s : TxIndex) (txin : TxinToKey) (i : UInt64) : Option StoredOutput :=
  s.outputAt txin.amount i.toNat

/-- The outputs the input names. -/
def TxIndex.ring (s : TxIndex) (txin : TxinToKey) : List StoredOutput :=
  (relativeOutputOffsetsToAbsolute txin.keyOffsets).filterMap (s.ringAt txin)

/-- The input has a ring, and all of it is on the chain and may be used. -/
structure RingFound (s : TxIndex) (txin : TxinToKey) : Prop where
  ne_nil : txin.keyOffsets ≠ []
  found : ∀ i ∈ relativeOutputOffsetsToAbsolute txin.keyOffsets, ∃ o, s.ringAt txin i = some o ∧
    (ringKey txin o).isSome = true

/-- The outputs of the ring may be spent now. -/
def RingUnlocked (s : TxIndex) (now height : ℕ) (txin : TxinToKey) : Prop :=
  ∀ o ∈ s.ring txin, isTxSpendtimeUnlocked now height o.tx.unlockTime = true

/-- `sig` is a ring signature of the input by its ring. -/
def Signs (E : Env) (s : TxIndex) (txPrefixHash : Hash) (inp : Txin) (sig : List Signature) : Prop :=
  ∃ txin, inp = .toKey txin ∧ E.validateKeyImage txin.kImage = true ∧
    sig.length = txin.keyOffsets.length ∧
    E.checkRingSignature txPrefixHash txin.kImage ((s.ring txin).filterMap (ringKey txin)) sig = true

section Check

variable {E : Env} {s : TxIndex} {now height : ℕ} {zone : Bool} {ph : Hash}

theorem scanOutputkey_eq (txin : TxinToKey) (i : UInt64) :
    s.scanOutputkey now height txin i = (s.ringAt txin i).bind fun o =>
      if isTxSpendtimeUnlocked now height o.tx.unlockTime then
        (ringKey txin o).map fun key => (key, o.height)
      else none := by
  unfold TxIndex.scanOutputkey TxIndex.ringAt TxIndex.outputAt
  cases (s.outputs txin.amount)[i.toNat]? with
  | none => rfl
  | some out =>
    dsimp only
    cases s.transactions.get out.1 with
    | none => rfl
    | some tce =>
      dsimp only [Option.map_some, Option.bind_some, ringKey]
      cases tce.tx.vout[out.2]? with
      | none => simp
      | some ot =>
        dsimp only
        cases ot.target with
        | toKey outtk =>
          dsimp only
          split_ifs <;> rfl
        | toScript t => simp
        | toScripthash t => simp

/-- The scan goes through when every output it comes to is there, may be used and is unlocked. -/
theorem mapM_scanOutputkey (txin : TxinToKey) (l : List UInt64) (rs : List (PublicKey × ℕ)) :
    l.mapM (s.scanOutputkey now height txin) = some rs ↔
      (∀ i ∈ l, ∃ o, s.ringAt txin i = some o ∧ (ringKey txin o).isSome = true) ∧
      (∀ o ∈ l.filterMap (s.ringAt txin), isTxSpendtimeUnlocked now height o.tx.unlockTime = true) ∧
      rs.map Prod.fst = (l.filterMap (s.ringAt txin)).filterMap (ringKey txin) ∧
      rs.map Prod.snd = (l.filterMap (s.ringAt txin)).map StoredOutput.height := by
  induction l generalizing rs with
  | nil => cases rs <;> simp
  | cons i l ih =>
    rw [List.mapM_cons, scanOutputkey_eq]
    cases hi : s.ringAt txin i with
    | none => simp [hi]
    | some o =>
      cases hkey : ringKey txin o with
      | none => simp [hi, hkey]
      | some key =>
        by_cases hu : isTxSpendtimeUnlocked now height o.tx.unlockTime = true
        · simp only [Option.bind_some, hu, if_true, hkey, Option.map_some, Option.bind_eq_bind,
            Option.bind_eq_some_iff, Option.pure_def, Option.some.injEq, ih, List.forall_mem_cons,
            List.filterMap_cons, hi, List.map_cons]
          constructor
          · rintro ⟨rs, ⟨h1, h2, h3, h4⟩, rfl⟩
            refine ⟨⟨⟨o, rfl, by rw [hkey]; rfl⟩, h1⟩, ⟨trivial, h2⟩, ?_, ?_⟩
            · rw [List.map_cons, h3]
            · rw [List.map_cons, h4]
          · rintro ⟨⟨-, h1⟩, ⟨-, h2⟩, h3, h4⟩
            cases rs with
            | nil => simp at h3
            | cons r rs =>
              obtain ⟨hfst, h3⟩ := List.cons.inj h3
              obtain ⟨hsnd, h4⟩ := List.cons.inj h4
              exact ⟨rs, ⟨h1, h2, h3, h4⟩, by rw [← hfst, ← hsnd]⟩
        · simp [hi, hu]

theorem length_relativeOutputOffsetsToAbsolute (l : List UInt64) :
    (relativeOutputOffsetsToAbsolute l).length = l.length := by
  have hgo : ∀ acc l, (relativeOutputOffsetsToAbsolute.go acc l).length = l.length + 1 := by
    intro acc l
    induction l generalizing acc with
    | nil => rfl
    | cons o l ih => simp only [relativeOutputOffsetsToAbsolute.go, List.length_cons, ih]
  cases l with
  | nil => rfl
  | cons o l => exact hgo o l

theorem RingFound.lengths {txin : TxinToKey} (h : RingFound s txin) :
    ((s.ring txin).filterMap (ringKey txin)).length = (s.ring txin).length ∧
      (s.ring txin).length = txin.keyOffsets.length := by
  have hring : ∀ o ∈ s.ring txin, (ringKey txin o).isSome = true := by
    intro o ho
    obtain ⟨i, hi, hat⟩ := List.mem_filterMap.mp ho
    obtain ⟨o', hat', hkey⟩ := h.found i hi
    obtain rfl := Option.some.inj (hat'.symm.trans hat)
    exact hkey
  have hat : ∀ i ∈ relativeOutputOffsetsToAbsolute txin.keyOffsets, (s.ringAt txin i).isSome = true := by
    intro i hi
    obtain ⟨o, hat, -⟩ := h.found i hi
    rw [hat]
    rfl
  refine ⟨List.filterMap_length_eq_length.mpr hring, ?_⟩
  rw [TxIndex.ring, List.filterMap_length_eq_length.mpr hat, length_relativeOutputOffsetsToAbsolute]

theorem RingFound.outputs_ne_nil {txin : TxinToKey} (h : RingFound s txin) :
    s.outputs txin.amount ≠ [] := by
  intro hnil
  obtain ⟨i, hi⟩ := List.exists_mem_of_ne_nil (relativeOutputOffsetsToAbsolute txin.keyOffsets) (by
    rw [← List.length_pos_iff, length_relativeOutputOffsetsToAbsolute, List.length_pos_iff]
    exact h.ne_nil)
  obtain ⟨o, hat, -⟩ := h.found i hi
  simp [TxIndex.ringAt, TxIndex.outputAt, hnil] at hat

/-- The largest height among outputs, from `m` on. -/
def maxHeightOf (os : List StoredOutput) (m : ℕ) : ℕ := (os.map StoredOutput.height).foldl max m

theorem checkTxInput_iff {txin : TxinToKey} {sig : List Signature} {m : ℕ}
    (hne : txin.keyOffsets ≠ []) :
    s.checkTxInput E now height zone ph txin sig = some m ↔
      RingFound s txin ∧ RingUnlocked s now height txin ∧
        (zone = true ∨ Signs E s ph (.toKey txin) sig) ∧ m = maxHeightOf (s.ring txin) 0 := by
  unfold TxIndex.checkTxInput TxIndex.scanOutputkeysForIndexes
  by_cases hout : s.outputs txin.amount = []
  · simp only [hout, if_true, reduceCtorEq, false_iff, not_and]
    exact fun hfound => absurd hout hfound.outputs_ne_nil
  simp only [hout, if_false]
  cases hl : (relativeOutputOffsetsToAbsolute txin.keyOffsets).mapM
      (s.scanOutputkey now height txin) with
  | none =>
    simp only [Option.map_none, reduceCtorEq, false_iff, not_and]
    rintro hfound hunlocked -
    -- the keys and heights of the ring are what the scan would have found
    let keys := (s.ring txin).filterMap (ringKey txin)
    let heights := (s.ring txin).map StoredOutput.height
    have hlen : keys.length = heights.length := by
      rw [List.length_map]
      exact hfound.lengths.1
    have hsome := (mapM_scanOutputkey txin _ (keys.zip heights)).mpr
      ⟨hfound.found, hunlocked, List.map_fst_zip hlen.le, List.map_snd_zip hlen.ge⟩
    rw [hl] at hsome
    cases hsome
  | some rs =>
    obtain ⟨hfound, hunlocked, hkeys, hheights⟩ := (mapM_scanOutputkey txin _ rs).mp hl
    have hring : RingFound s txin := ⟨hne, hfound⟩
    have hkeys : rs.map Prod.fst = (s.ring txin).filterMap (ringKey txin) := hkeys
    have hmax : (rs.map Prod.snd).foldl max 0 = maxHeightOf (s.ring txin) 0 := by
      rw [hheights]
      rfl
    have hlen := hring.lengths.1.trans hring.lengths.2
    simp only [Option.map_some, hkeys, hmax, hlen, ne_eq, not_true_eq_false, if_false]
    have hsigns : Signs E s ph (.toKey txin) sig ↔ (E.validateKeyImage txin.kImage &&
        decide (sig.length = txin.keyOffsets.length) &&
        E.checkRingSignature ph txin.kImage ((s.ring txin).filterMap (ringKey txin)) sig) = true := by
      simp only [Signs, Bool.and_eq_true, decide_eq_true_eq]
      constructor
      · rintro ⟨txin', heq, h1, h2, h3⟩
        obtain rfl := Txin.toKey.inj heq
        exact ⟨⟨h1, h2⟩, h3⟩
      · rintro ⟨⟨h1, h2⟩, h3⟩
        exact ⟨txin, rfl, h1, h2, h3⟩
    rw [hsigns]
    have hunlocked : RingUnlocked s now height txin := hunlocked
    cases zone with
    | true =>
      simp only [if_true, Option.some.injEq, hring, hunlocked, true_or, true_and]
      exact eq_comm
    | false =>
      simp only [Bool.false_eq_true, if_false, false_or, hring, hunlocked, true_and]
      split_ifs with hsig
      · simp only [hsig, true_and, Option.some.injEq]
        exact eq_comm
      · simp only [hsig, Bool.false_eq_true, false_and]

/-- An input that passes besides its signature. -/
structure InputPasses (s : TxIndex) (now height : ℕ) (inp : Txin) (txin : TxinToKey) : Prop where
  toKey : inp = .toKey txin
  found : RingFound s txin
  fresh : s.spentKeys.get txin.kImage = none
  unlocked : RingUnlocked s now height txin

/-- The outputs that the inputs name. -/
def TxIndex.rings (s : TxIndex) (vin : List Txin) : List StoredOutput :=
  (vin.filterMap Txin.toKey?).flatMap s.ring

theorem maxHeightOf_rings_cons (txin : TxinToKey) (l : List Txin) (m : ℕ) :
    maxHeightOf (s.rings (.toKey txin :: l)) m =
      maxHeightOf (s.rings l) (max m (maxHeightOf (s.ring txin) 0)) := by
  have hrings : s.rings (.toKey txin :: l) = s.ring txin ++ s.rings l := rfl
  rw [hrings, maxHeightOf, List.map_append, List.foldl_append, foldl_max_eq _ m]
  rfl

theorem checkTxInputsGo_iff {vin : List Txin} {sigs : List (List Signature)} {m r : ℕ} :
    s.checkTxInputsGo E now height zone ph vin sigs m = some r ↔
      (∀ inp ∈ vin, ∃ txin, InputPasses s now height inp txin) ∧
        (zone = true ∨ List.Forall₂ (Signs E s ph) vin sigs) ∧ r = maxHeightOf (s.rings vin) m := by
  induction vin generalizing sigs m with
  | nil =>
    cases zone <;> cases sigs <;> simp [TxIndex.checkTxInputsGo, maxHeightOf, TxIndex.rings, eq_comm]
  | cons inp l ih =>
    have hother : (∀ txin, inp ≠ .toKey txin) →
        ¬∀ inp' ∈ inp :: l, ∃ txin, InputPasses s now height inp' txin := by
      intro hne hall
      obtain ⟨txin, hpass⟩ := hall inp List.mem_cons_self
      exact hne txin hpass.toKey
    cases inp with
    | toKey txin =>
      -- the heights of the rings add up along the inputs, so the maximum is that of all of them
      rw [checkTxInputsGo_cons]
      constructor
      · rintro ⟨hne, hfresh, hsigs, m', hone, hrest⟩
        obtain ⟨hfound, hunlocked, hsign, rfl⟩ := (checkTxInput_iff hne).mp hone
        obtain ⟨hall, hsigned, rfl⟩ := ih.mp hrest
        refine ⟨?_, ?_, ?_⟩
        · intro inp hinp
          rcases List.mem_cons.mp hinp with rfl | hinp
          · exact ⟨txin, rfl, hfound, hfresh, hunlocked⟩
          · exact hall inp hinp
        · cases zone with
          | true => exact Or.inl rfl
          | false =>
            cases sigs with
            | nil => simp at hsigs
            | cons sig sigs =>
              exact Or.inr (.cons (hsign.resolve_left Bool.false_ne_true)
                (hsigned.resolve_left Bool.false_ne_true))
        · rw [maxHeightOf_rings_cons]
      · rintro ⟨hall, hsigned, rfl⟩
        obtain ⟨txin', hpass⟩ := hall _ List.mem_cons_self
        obtain rfl := Txin.toKey.inj hpass.toKey
        have hne := hpass.found.ne_nil
        have hrest : ∀ inp ∈ l, ∃ txin, InputPasses s now height inp txin :=
          fun inp hinp => hall inp (List.mem_cons_of_mem _ hinp)
        refine ⟨hne, hpass.fresh, ?_⟩
        cases zone with
        | true =>
          exact ⟨rfl, _, (checkTxInput_iff hne).mpr ⟨hpass.found, hpass.unlocked, Or.inl rfl, rfl⟩,
            ih.mpr ⟨hrest, Or.inl rfl, maxHeightOf_rings_cons ..⟩⟩
        | false =>
          cases hsigned.resolve_left Bool.false_ne_true with
          | cons hsign hsigned' =>
            exact ⟨rfl, _, (checkTxInput_iff hne).mpr ⟨hpass.found, hpass.unlocked, Or.inr hsign, rfl⟩,
              ih.mpr ⟨hrest, Or.inr hsigned', maxHeightOf_rings_cons ..⟩⟩
    | gen g =>
      simp only [TxIndex.checkTxInputsGo, reduceCtorEq, false_iff, not_and]
      exact fun hall => absurd hall (hother fun _ h => by cases h)
    | toScript a b c =>
      simp only [TxIndex.checkTxInputsGo, reduceCtorEq, false_iff, not_and]
      exact fun hall => absurd hall (hother fun _ h => by cases h)
    | toScripthash a b c d =>
      simp only [TxIndex.checkTxInputsGo, reduceCtorEq, false_iff, not_and]
      exact fun hall => absurd hall (hother fun _ h => by cases h)

theorem maxHeightOf_lt {os : List StoredOutput} {m H : ℕ} :
    maxHeightOf os m < H ↔ m < H ∧ ∀ o ∈ os, o.height < H := by
  unfold maxHeightOf
  induction os generalizing m with
  | nil => simp
  | cons o os ih =>
    rw [List.map_cons, List.foldl_cons, ih, List.forall_mem_cons, max_lt_iff, and_assoc]

theorem le_maxHeightOf {os : List StoredOutput} {o : StoredOutput} (ho : o ∈ os) (m : ℕ) :
    o.height ≤ maxHeightOf os m :=
  Nat.lt_succ_iff.mp ((maxHeightOf_lt.mp (Nat.lt_succ_self _)).2 o ho)

theorem checkTxInputs_iff {v : ChainView} {tx : Transaction} {r : ℕ × Hash} :
    v.checkTxInputs s tx = some r ↔
      (∀ inp ∈ tx.vin, ∃ txin, InputPasses s v.now v.blocks.length inp txin) ∧
        (v.zone = true ∨
          List.Forall₂ (Signs v.env s (getTransactionHash v.env tx)) tx.vin tx.signatures) ∧
        r.1 = maxHeightOf (s.rings tx.vin) 0 ∧
        ∃ bei, v.blocks[r.1]? = some bei ∧ r.2 = getBlockHash v.env bei.bl := by
  obtain ⟨m, id⟩ := r
  unfold ChainView.checkTxInputs TxIndex.checkTxInputs
  constructor
  · intro h
    cases hc : s.checkTxInputsGo v.env v.now v.blocks.length v.zone (getTransactionHash v.env tx)
        tx.vin tx.signatures 0 with
    | none => simp [hc] at h
    | some m' =>
      obtain ⟨hall, hsigned, hm⟩ := checkTxInputsGo_iff.mp hc
      simp only [hc] at h
      cases hb : v.blocks[m']? with
      | none => simp [hb] at h
      | some bei =>
        simp only [hb, Option.some.injEq, Prod.mk.injEq] at h
        obtain ⟨rfl, rfl⟩ := h
        exact ⟨hall, hsigned, hm, bei, hb, rfl⟩
  · rintro ⟨hall, hsigned, hm, bei, hb, rfl⟩
    have hgo := checkTxInputsGo_iff.mpr ⟨hall, hsigned, hm⟩
    dsimp only at hb
    rw [hgo]
    dsimp only
    rw [hb]

theorem checkTxInputs_isSome_iff {v : ChainView} {tx : Transaction} (hne : v.blocks ≠ [])
    (hbelow : ∀ o ∈ s.rings tx.vin, o.height < v.blocks.length) :
    (v.checkTxInputs s tx).isSome = true ↔
      (∀ inp ∈ tx.vin, ∃ txin, InputPasses s v.now v.blocks.length inp txin) ∧
        (v.zone = true ∨
          List.Forall₂ (Signs v.env s (getTransactionHash v.env tx)) tx.vin tx.signatures) := by
  constructor
  · intro h
    obtain ⟨r, hr⟩ := Option.isSome_iff_exists.mp h
    obtain ⟨hall, hsigned, -⟩ := checkTxInputs_iff.mp hr
    exact ⟨hall, hsigned⟩
  · rintro ⟨hall, hsigned⟩
    have hlt : maxHeightOf (s.rings tx.vin) 0 < v.blocks.length :=
      maxHeightOf_lt.mpr ⟨List.length_pos_iff.mpr hne, hbelow⟩
    obtain ⟨bei, hbei⟩ : ∃ bei, v.blocks[maxHeightOf (s.rings tx.vin) 0]? = some bei :=
      ⟨_, List.getElem?_eq_getElem hlt⟩
    exact Option.isSome_iff_exists.mpr ⟨(_, getBlockHash v.env bei.bl),
      checkTxInputs_iff.mpr ⟨hall, hsigned, rfl, bei, hbei, rfl⟩⟩

end Check

section Decision

variable {E : Env} {now : ℕ} {n : Node} {txd : TxDetails}

theorem fresh_of_check {tx : Transaction} {r : ℕ × Hash}
    (h : (n.view E now).checkTxInputs n.txs.index tx = some r) :
    n.txs.index.haveTxKeyimgesAsSpent tx = false := by
  obtain ⟨hall, -⟩ := checkTxInputs_iff.mp h
  refine List.any_eq_false.mpr fun inp hinp => ?_
  obtain ⟨txin, hpass⟩ := hall inp hinp
  rw [hpass.toKey]
  simp [hpass.fresh]

/-- A trusted pair leaves only the key images to be looked at. -/
theorem ready_of_trusted (h : Trusted E n txd) :
    (isTransactionReadyToGo E now n txd).1 = none ↔
      n.txs.index.haveTxKeyimgesAsSpent txd.tx = false := by
  have hinputs : readyInputs E now n txd = .ok txd := by
    unfold readyInputs
    rw [if_neg h.checked, if_neg (by have := h.below; omega), if_neg (not_not.mpr h.onChain)]
  unfold isTransactionReadyToGo
  rw [hinputs]
  dsimp only
  split_ifs with hspent
  · simp [hspent]
  · simp [hspent]

/-- An entry that is found ready without being trusted has passed the check. -/
theorem checked_of_ready (h : ¬Trusted E n txd) (hready : (isTransactionReadyToGo E now n txd).1 = none) :
    ((n.view E now).checkTxInputs n.txs.index txd.tx).isSome = true := by
  unfold isTransactionReadyToGo at hready
  rcases readyInputs_cases E now n txd with ⟨ht, -⟩ | ⟨-, reason, hr⟩ |
    ⟨maxUsed, hc, -⟩ | ⟨reason, m, -, hr⟩
  · exact absurd ht h
  · simp [hr] at hready
  · rw [hc]
    rfl
  · simp [hr] at hready

theorem check_of_declined (hready : (isTransactionReadyToGo E now n txd).1 ≠ none) :
    CachedAbove n txd ∨ FailureCounts E n txd ∨
      (n.view E now).checkTxInputs n.txs.index txd.tx = none := by
  by_contra hnot
  rw [not_or, not_or] at hnot
  obtain ⟨habove, hcounts, hpass⟩ := hnot
  obtain ⟨r, hc⟩ := Option.ne_none_iff_exists'.mp hpass
  have hfresh := fresh_of_check hc
  refine hready ?_
  rcases readyInputs_cases E now n txd with ⟨ht, -⟩ | ⟨hearly, -⟩ | ⟨maxUsed, -, hr⟩ | ⟨reason, m, hnone, -⟩
  · exact (ready_of_trusted ht).mpr hfresh
  · exact absurd hearly (by simp [habove, hcounts])
  · unfold isTransactionReadyToGo
    have hfresh' : n.txs.index.haveTxKeyimgesAsSpent (txd.passed maxUsed).tx = false := hfresh
    rw [hr]
    dsimp only
    rw [if_neg (by rw [hfresh']; decide)]
  · rw [hc] at hnone
    cases hnone

end Decision

end Boolberry
