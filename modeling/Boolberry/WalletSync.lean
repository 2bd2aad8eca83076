import Boolberry.WalletChains

/-!
# Following a daemon through reorganisations

A wallet that only adds blocks is the fold of its blocks' effects over the fresh
wallet. `detach_blockchain` takes back the transfers, their key images and the payments
of the detached blocks, but neither their history entries nor the spent flags they set
on transfers that stay, so a wallet that goes through a reorganisation is that of the
new chain as long as the detached blocks hold no transaction of the wallet.
-/

namespace Boolberry
open KeyValue Aborting

/-- The main chains a daemon has one after the other, with what it reports for their blocks. They
start at genesis, and a block id determines the blocks up to it. -/
structure Daemon (E : Env) where
  chains : Set (List ServedBlock)
  isBlock : ∀ ch ∈ chains, ∀ sb ∈ ch, (sb.id? E).isSome
  genesis : ∀ ch ∈ chains, ch.head?.bind (ServedBlock.id? E) = some (getBlockHash E generateGenesisBlock)
  coherent : ∀ ch ∈ chains, ∀ ch' ∈ chains, ∀ i j id, (ch[i]?).bind (ServedBlock.id? E) = some id →
    (ch'[j]?).bind (ServedBlock.id? E) = some id → ch.take (i + 1) = ch'.take (j + 1)

namespace Wallet2

/-- The transaction pays the account or spends an output whose key image the wallet knows. -/
def touches (E : WalletEnv) (w : Wallet2) (tx : Transaction) : Bool :=
  (match parseAndValidateTxExtra E.toEnv tx with
    | none => false
    | some tei =>
        match lookupAccOuts E.toEnv w.account.keys tei.txPubKey 0 tx.vout with
        | none => false
        | some (outs, money) => decide (outs ≠ [] ∧ money ≠ 0)) ||
  (toKeyInputs tx).any fun inp => (w.keyImages.get inp.kImage).isSome

/-- A block the wallet looks into holds such a transaction. -/
def touchesBlock (E : WalletEnv) (w : Wallet2) (sb : ServedBlock) : Bool :=
  match parseAndValidateBlockFromBlob sb.block with
  | none => false
  | some bl => w.isScanned bl &&
      (touches E w bl.minerTx || sb.txs.any fun txBlob =>
        ((parseAndValidateTxFromBlob txBlob).map (touches E w)).getD false)

section Untouched

variable {E : WalletEnv} {w w' : Wallet2} {tx : Transaction}

theorem spendInputs_untouched {l : List TxinToKey} {i : ℕ} {s : TxScan}
    (h : ∀ inp ∈ l, s.wallet.keyImages.get inp.kImage = none) : spendInputs i l s = .ok s := by
  induction l generalizing i with
  | nil => rfl
  | cons inp l ih =>
    unfold spendInputs
    simp only [h inp (by simp)]
    exact ih fun inp' hinp' => h inp' (by simp [hinp'])

theorem lookupAccOuts_nil {acc : AccountKeys} {txPubKey : PublicKey} {l : List TxOut} {i : ℕ}
    {money : UInt64} (h : lookupAccOuts E.toEnv acc txPubKey i l = some ([], money)) : money = 0 := by
  induction l generalizing i with
  | nil =>
    unfold lookupAccOuts at h
    cases h
    rfl
  | cons o l ih =>
    unfold lookupAccOuts at h
    split at h
    · obtain ⟨r, hr, hif⟩ := Option.map_eq_some_iff.mp h
      split_ifs at hif
      · cases hif
      · subst hif
        exact ih hr
    · cases h

/-- A transaction of others leaves nothing behind. -/
theorem processNewTransaction_untouched {oIndexes : Option (List UInt64)} {height : ℕ} {b : Block}
    (hu : w.unconfirmedTxs = ∅) (ht : touches E w tx = false)
    (h : processNewTransaction E oIndexes tx height b w = .ok w') : w' = w := by
  have hpu : processUnconfirmed E.toEnv tx w = (([], []), w) := by
    unfold processUnconfirmed
    rw [hu, Map.get_empty]
  unfold touches at ht
  rw [Bool.or_eq_false_iff] at ht
  have hinputs : ∀ inp ∈ toKeyInputs tx, w.keyImages.get inp.kImage = none := by
    intro inp hinp
    simpa using List.any_eq_false.mp ht.2 inp hinp
  have hpays := ht.1
  unfold processNewTransaction at h
  simp only [hpu] at h
  split at h
  · cases h
  · next tei htei =>
    split at h
    · cases h
    · next outs money houts =>
      -- either nothing is ours or the sum wraps to zero
      have hmoney : money = 0 ∧ receiveMoney E oIndexes tx tei.txPubKey height outs money w =
          .ok ⟨money, 0, {}, w⟩ := by
        by_cases hnil : outs = []
        · subst hnil
          exact ⟨lookupAccOuts_nil houts, by simp [receiveMoney]⟩
        · have hzero : money = 0 := by
            simpa [htei, houts, hnil] using hpays
          exact ⟨hzero, by simp [receiveMoney, hzero]⟩
      obtain ⟨rfl, hreceive⟩ := hmoney
      have hpay : recordPayment E.toEnv tx height ⟨0, 0, {}, w⟩ = w := by
        unfold recordPayment
        split
        · rfl
        · simp
      have hspend : spendInputs 0 (toKeyInputs tx) ⟨0, 0, {}, w⟩ = .ok ⟨0, 0, {}, w⟩ :=
        spendInputs_untouched hinputs
      simp only [hreceive, ok_bind, hspend, hpay, recordHistory, ne_eq, not_true_eq_false, if_false,
        Except.ok.injEq] at h
      exact h.symm

theorem processTransactions_untouched {oIndexes : ℕ → Option (List UInt64)} {height i : ℕ} {b : Block}
    {l : List Blob} (hu : w.unconfirmedTxs = ∅)
    (ht : ∀ txBlob ∈ l, ∀ tx, parseAndValidateTxFromBlob txBlob = some tx → touches E w tx = false)
    (h : processTransactions E oIndexes height b i l w = .ok w') : w' = w := by
  induction l generalizing i with
  | nil =>
    cases h
    rfl
  | cons txBlob l ih =>
    unfold processTransactions at h
    split at h
    · cases h
    · next tx htx =>
      obtain ⟨w₁, h₁, h₂⟩ := bind_eq_ok.mp h
      obtain rfl := processNewTransaction_untouched hu (ht txBlob (by simp) tx htx) h₁
      exact ih (fun txBlob' hb => ht txBlob' (by simp [hb])) h₂

theorem addServed_untouched {sb : ServedBlock} (hu : w.unconfirmedTxs = ∅)
    (ht : touchesBlock E w sb = false) (h : addServed E w sb = .ok w') :
    w' = { w with blockchain := w'.blockchain } := by
  obtain ⟨bl, w₁, hbl, hscan, -, rfl⟩ := addServed_ok h
  suffices w₁ = w by rw [this]
  unfold scanBlock at hscan
  cases hs : w.isScanned bl with
  | false =>
    rw [hs] at hscan
    cases hscan
    rfl
  | true =>
    rw [hs, if_pos rfl] at hscan
    obtain ⟨w₂, h₁, h₂⟩ := bind_eq_ok.mp hscan
    unfold touchesBlock at ht
    simp only [hbl, hs, Bool.true_and, Bool.or_eq_false_iff] at ht
    obtain rfl := processNewTransaction_untouched hu ht.1 h₁
    refine processTransactions_untouched hu (fun txBlob hb tx htx => ?_) h₂
    simpa [htx] using List.any_eq_false.mp ht.2 txBlob hb

end Untouched

section Added

variable {E : WalletEnv} {w w' : Wallet2}

theorem Changes.unconfirmed_empty {height : ℕ} (h : Changes E height w w')
    (hu : w.unconfirmedTxs = ∅) : w'.unconfirmedTxs = ∅ := by
  induction h with
  | refl => exact hu
  | tail _ hstep ih =>
    cases hstep with
    | unconfirmed txHash =>
      refine Map.ext fun k => ?_
      rw [Map.get_erase, ih, Map.get_empty]
      split_ifs <;> rfl
    | _ => exact ih

/-- What a wallet that is not waiting for a transaction of its own keeps while blocks are added: what
it holds was received in its blocks. -/
structure Settled (w : Wallet2) : Prop where
  unconfirmed : w.unconfirmedTxs = ∅
  below : Below w.blockchain.length w

theorem addServed_settled {sb : ServedBlock} (hw : Settled w) (h : addServed E w sb = .ok w') :
    Settled w' := by
  obtain ⟨bl, w₁, -, -, hchanges, rfl⟩ := addServed_ok h
  have hbelow : Below (w.blockchain.length + 1) w :=
    ⟨fun td htd => Nat.lt_succ_of_lt (hw.below.transfers td htd),
      fun p hp => Nat.lt_succ_of_lt (hw.below.payments p hp)⟩
  have := hchanges.below (Nat.lt_succ_self _) hbelow
  refine ⟨hchanges.unconfirmed_empty hw.unconfirmed, ?_⟩
  simp only [List.length_append, List.length_singleton]
  exact ⟨this.transfers, this.payments⟩

theorem addAll_settled {l : List ServedBlock} (hw : Settled w) (h : addAll E l w = .ok w') :
    Settled w' := by
  induction l generalizing w with
  | nil =>
    cases h
    exact hw
  | cons sb l ih =>
    obtain ⟨w₁, h₁, h₂⟩ := bind_eq_ok.mp ((addAll_cons sb l).symm.trans h)
    exact ih (addServed_settled hw h₁) h₂

/-- What is known to the wallet before blocks are added is known afterwards. -/
theorem touchesBlock_mono {sb : ServedBlock} (ha : w'.account = w.account)
    (hk : ∀ ki, w.keyImages.get ki ≠ none → w'.keyImages.get ki ≠ none)
    (h : touchesBlock E w' sb = false) : touchesBlock E w sb = false := by
  have hscan : ∀ b, w'.isScanned b = w.isScanned b := fun b => by rw [isScanned, isScanned, ha]
  have hinput : ∀ ki, (w'.keyImages.get ki).isSome = false → (w.keyImages.get ki).isSome = false := by
    intro ki hki
    by_contra hne
    simp only [Bool.not_eq_false, Option.isSome_iff_ne_none] at hne
    have := hk ki hne
    simp_all
  have htx : ∀ tx, touches E w' tx = false → touches E w tx = false := by
    intro tx htx
    unfold touches at htx ⊢
    rw [Bool.or_eq_false_iff] at htx ⊢
    rw [ha] at htx
    refine ⟨htx.1, List.any_eq_false.mpr fun inp hinp => ?_⟩
    have := List.any_eq_false.mp htx.2 inp hinp
    rw [Bool.not_eq_true] at this ⊢
    exact hinput _ this
  unfold touchesBlock at h ⊢
  cases hbl : parseAndValidateBlockFromBlob sb.block with
  | none => rfl
  | some bl =>
    simp only [hbl] at h ⊢
    rw [hscan] at h
    cases hs : w.isScanned bl with
    | false => rfl
    | true =>
      rw [hs, Bool.true_and, Bool.or_eq_false_iff] at h
      rw [Bool.true_and, Bool.or_eq_false_iff]
      refine ⟨htx _ h.1, List.any_eq_false.mpr fun txBlob hb => ?_⟩
      have := List.any_eq_false.mp h.2 txBlob hb
      rw [Bool.not_eq_true] at this ⊢
      cases hp : parseAndValidateTxFromBlob txBlob with
      | none => rfl
      | some tx =>
        rw [hp] at this
        exact htx tx this

theorem addAll_known {l : List ServedBlock} (h : addAll E l w = .ok w') :
    w'.account = w.account ∧ ∀ ki, w.keyImages.get ki ≠ none → w'.keyImages.get ki ≠ none := by
  induction l generalizing w with
  | nil =>
    cases h
    exact ⟨rfl, fun _ hki => hki⟩
  | cons sb l ih =>
    obtain ⟨w₁, h₁, h₂⟩ := bind_eq_ok.mp ((addAll_cons sb l).symm.trans h)
    obtain ⟨bl, w₂, -, -, hchanges, rfl⟩ := addServed_ok h₁
    obtain ⟨ha, hk⟩ := ih h₂
    exact ⟨ha.trans hchanges.sameSetup.account, fun ki hki => hk ki (hchanges.known hki)⟩

theorem addAll_untouched {l : List ServedBlock} (hu : w.unconfirmedTxs = ∅)
    (h : addAll E l w = .ok w') (ht : ∀ sb ∈ l, touchesBlock E w' sb = false) :
    w' = { w with blockchain := w'.blockchain } := by
  induction l generalizing w with
  | nil =>
    cases h
    rfl
  | cons sb l ih =>
    obtain ⟨ha, hk⟩ := addAll_known h
    obtain ⟨w₁, h₁, h₂⟩ := bind_eq_ok.mp ((addAll_cons sb l).symm.trans h)
    have hw₁ := addServed_untouched hu (touchesBlock_mono ha hk (ht sb (by simp))) h₁
    have := ih (by rw [hw₁]; exact hu) h₂ fun sb' hsb' => ht sb' (by simp [hsb'])
    rw [this, hw₁]

/-- Nothing the wallet holds goes when it was all received below. -/
theorem detachBlockchain_below {h : ℕ} (hw : Below h w) :
    detachBlockchain h w = .ok { w with blockchain := w.blockchain.take h } := by
  have hstart : w.detachStart h = w.transfers.length := by
    unfold detachStart
    rw [List.findIdx_eq_length]
    intro td htd
    simpa using hw.transfers td htd
  have hpay : (w.payments.filter fun p => decide (p.2.blockHeight < h)) = w.payments := by
    rw [List.filter_eq_self]
    intro p hp
    simpa using hw.payments p hp
  unfold detachBlockchain
  rw [hstart, List.drop_length]
  simp only [detachKeyImages, ok_bind, List.take_length, hpay]

end Added

/-- The wallet is the fold of the blocks of a chain of the daemon over the fresh wallet `w₀`. -/
structure Synced (E : WalletEnv) (D : Daemon E.toEnv) (w₀ : Wallet2) (p : List ServedBlock)
    (w : Wallet2) : Prop where
  chain : ∃ ch ∈ D.chains, ∃ k, 0 < k ∧ p = ch.take k
  folded : addAll E p.tail w₀ = .ok w

/-- The blocks that a call of `pull_blocks` detaches hold no transaction of the wallet. -/
def QuietSplit (E : WalletEnv) (D : Daemon E.toEnv) (ch : List ServedBlock) (w : Wallet2) : Prop :=
  ∀ start blocks h, serve E.toEnv ch (walletShortChainHistory w.blockchain) = some (start, blocks) →
    splitHeight E.toEnv w.blockchain start blocks = some h →
    ∀ id ∈ w.blockchain.drop h, ∀ ch' ∈ D.chains, ∀ sb ∈ ch', sb.id? E.toEnv = some id →
      touchesBlock E w sb = false

/-- Successful calls of `pull_blocks`, each against the main chain the daemon has at the time. -/
def pullAll (E : WalletEnv) : List (List ServedBlock) → Wallet2 → Except Wallet2 Wallet2
  | [], w => .ok w
  | ch :: l, w => do
      let r ← pullBlocks E (serve E.toEnv ch) w
      pullAll E l r.2

/-- Every call of a run meets the condition where it is made. -/
def QuietRun (E : WalletEnv) (D : Daemon E.toEnv) : List (List ServedBlock) → Wallet2 → Prop
  | [], _ => True
  | ch :: l, w => QuietSplit E D ch w ∧
      ∀ r, pullBlocks E (serve E.toEnv ch) w = .ok r → QuietRun E D l r.2

section Runs

variable {E : WalletEnv} {D : Daemon E.toEnv} {w₀ w w' : Wallet2} {p ch : List ServedBlock}

theorem settled_of_fresh (h : w₀ = w₀.clear E.toEnv) : Settled w₀ := by
  rw [h]
  exact ⟨rfl, ⟨by simp [clear], by simp [clear]⟩⟩

theorem Synced.blockchain (hw₀ : w₀ = w₀.clear E.toEnv) (h : Synced E D w₀ p w) :
    w.blockchain.map some = p.map (ServedBlock.id? E.toEnv) := by
  obtain ⟨ch, hc, k, hk, hp⟩ := h.chain
  have hg := D.genesis ch hc
  have hhead : p.head?.bind (ServedBlock.id? E.toEnv) = ch.head?.bind (ServedBlock.id? E.toEnv) := by
    rw [hp, List.head?_take, if_neg hk.ne']
  have hgenesis : w₀.blockchain = [getBlockHash E.toEnv generateGenesisBlock] := by
    rw [hw₀]
    rfl
  rw [addAll_blockchain h.folded, hgenesis]
  cases hpc : p with
  | nil =>
    rw [hpc, hg] at hhead
    cases hhead
  | cons sb l =>
    rw [hpc, List.head?_cons, Option.bind_some] at hhead
    rw [List.tail_cons, List.map_cons, List.map_nil, List.map_cons, hhead, hg, List.singleton_append]

theorem Synced.length (hw₀ : w₀ = w₀.clear E.toEnv) (h : Synced E D w₀ p w) :
    w.blockchain.length = p.length := by
  simpa using congrArg List.length (h.blockchain hw₀)

theorem Synced.getElem? (hw₀ : w₀ = w₀.clear E.toEnv) (h : Synced E D w₀ p w) {i : ℕ} {id : Hash} :
    w.blockchain[i]? = some id ↔ (p[i]?).bind (ServedBlock.id? E.toEnv) = some id := by
  have := congrArg (fun l => l[i]?) (h.blockchain hw₀)
  simp only [List.getElem?_map] at this
  cases hp : p[i]? with
  | none =>
    rw [hp, Option.map_none, Option.map_eq_none_iff] at this
    simp [this]
  | some sb =>
    rw [hp, Option.map_some] at this
    obtain ⟨id', hid', hsome⟩ := Option.map_eq_some_iff.mp this
    rw [hid', Option.bind_some, ← hsome]

/-- A wallet on one chain of the daemon agrees with another chain up to some height. -/
theorem Synced.agree (hw₀ : w₀ = w₀.clear E.toEnv) (h : Synced E D w₀ p w) (hc : ch ∈ D.chains) :
    ∃ d, AgreeUpTo E.toEnv ch w.blockchain d ∧ p.take d = ch.take d := by
  classical
  obtain ⟨c₀, hc₀, k, hk, hp⟩ := h.chain
  have hlen := h.length hw₀
  have hpget : ∀ i id, (p[i]?).bind (ServedBlock.id? E.toEnv) = some id →
      (c₀[i]?).bind (ServedBlock.id? E.toEnv) = some id ∧ p.take (i + 1) = c₀.take (i + 1) ∧
        i < p.length := by
    intro i id hi
    obtain ⟨sb, hsb, hid⟩ := Option.bind_eq_some_iff.mp hi
    have hlt := (List.getElem?_eq_some_iff.mp hsb).1
    have hltk : i < k := by
      rw [hp, List.length_take] at hlt
      omega
    refine ⟨?_, ?_, hlt⟩
    · rw [hp, List.getElem?_take_of_lt hltk] at hsb
      rw [hsb]
      exact hid
    · rw [hp, List.take_take, Nat.min_eq_left (by omega)]
  -- the longest common start
  let P : ℕ → Prop := fun d => d ≤ ch.length ∧ p.take d = ch.take d
  have hzero : P 0 := ⟨Nat.zero_le _, by simp⟩
  have hmatch : ∀ i j id, w.blockchain[i]? = some id →
      (ch[j]?).bind (ServedBlock.id? E.toEnv) = some id → i = j ∧ P (i + 1) ∧ i + 1 ≤ p.length := by
    intro i j id hi hj
    obtain ⟨hci, htake, hilt⟩ := hpget i id ((h.getElem? hw₀).mp hi)
    have hcoh := D.coherent c₀ hc₀ ch hc i j id hci hj
    obtain ⟨sb, hsb, -⟩ := Option.bind_eq_some_iff.mp hj
    obtain ⟨sb', hsb', -⟩ := Option.bind_eq_some_iff.mp hci
    have hjlt := (List.getElem?_eq_some_iff.mp hsb).1
    have hilt' := (List.getElem?_eq_some_iff.mp hsb').1
    have hij : i = j := by
      have := congrArg List.length hcoh
      rw [List.length_take, List.length_take] at this
      omega
    subst hij
    exact ⟨rfl, ⟨hjlt, htake.trans hcoh⟩, hilt⟩
  have hgreatest : P (Nat.findGreatest P p.length) := Nat.findGreatest_spec (Nat.zero_le _) hzero
  refine ⟨Nat.findGreatest P p.length, ⟨?_, ?_, ?_, ?_⟩, hgreatest.2⟩
  · -- the genesis block is common
    have hg := D.genesis ch hc
    rw [List.head?_eq_getElem?] at hg
    have hg' : w.blockchain[0]? = some (getBlockHash E.toEnv generateGenesisBlock) := by
      rw [h.getElem? hw₀, hp, List.getElem?_take_of_lt hk, ← List.head?_eq_getElem?]
      exact D.genesis c₀ hc₀
    obtain ⟨-, hP, hle⟩ := hmatch 0 0 _ hg' hg
    exact Nat.le_findGreatest hle hP
  · rw [hlen]
    exact Nat.findGreatest_le _
  · intro i hi
    have hilt : i < p.length := hi.trans_le (Nat.findGreatest_le _)
    have hget : p[i]? = ch[i]? := by
      have := congrArg (fun l => l[i]?) hgreatest.2
      simpa only [List.getElem?_take_of_lt hi] using this
    obtain ⟨id, hid⟩ := Option.isSome_iff_exists.mp
      (D.isBlock ch hc p[i] (by
        refine List.mem_iff_getElem?.mpr ⟨i, ?_⟩
        rw [← hget, List.getElem?_eq_getElem hilt]))
    refine ⟨id, ?_, ?_⟩
    · rw [h.getElem? hw₀, List.getElem?_eq_getElem hilt]
      exact hid
    · rw [← hget, List.getElem?_eq_getElem hilt]
      exact hid
  · intro i j id hi hj
    obtain ⟨hij, hP, hle⟩ := hmatch i j id hi hj
    exact ⟨hij, Nat.le_findGreatest hle hP⟩

/-- A detach of blocks without transactions of the wallet goes back to the wallet as it was. -/
theorem Synced.makeRoom (hw₀ : w₀ = w₀.clear E.toEnv) (h : Synced E D w₀ p w) {d : ℕ} (hd : 0 < d)
    (hle : d ≤ p.length) (ht : ∀ sb ∈ p.drop d, touchesBlock E w sb = false)
    (hroom : makeRoom d w = .ok w') : Synced E D w₀ (p.take d) w' := by
  obtain ⟨c₀, hc₀, k, hk, hp⟩ := h.chain
  refine ⟨⟨c₀, hc₀, min d k, by omega, by rw [hp, List.take_take]⟩, ?_⟩
  have htail : p.tail = (p.take d).tail ++ p.drop d := by
    cases hpc : p with
    | nil => simp
    | cons sb l =>
      obtain ⟨d, rfl⟩ : ∃ d', d = d' + 1 := ⟨d - 1, by omega⟩
      simp
  have hfold := h.folded
  rw [htail, addAll_append] at hfold
  obtain ⟨w₁, h₁, h₂⟩ := bind_eq_ok.mp hfold
  rw [h₁]
  have hs₁ := addAll_settled (settled_of_fresh hw₀) h₁
  have hw := addAll_untouched hs₁.unconfirmed h₂ ht
  have hlen₁ : w₁.blockchain.length = d := by
    have h₁' : Synced E D w₀ (p.take d) w₁ :=
      ⟨⟨c₀, hc₀, min d k, by omega, by rw [hp, List.take_take]⟩, h₁⟩
    rw [h₁'.length hw₀, List.length_take]
    omega
  have hback : { w with blockchain := w.blockchain.take d } = w₁ := by
    have hchain : w.blockchain.take d = w₁.blockchain := by
      have := addAll_blockchain h₂
      have := congrArg (List.take d) this
      rw [List.take_append_of_le_length (by simp [hlen₁]), ← List.map_take, ← List.map_take] at this
      rw [List.map_injective_iff.mpr (Option.some_injective _) this, ← hlen₁, List.take_length]
    rw [hw] at hchain ⊢
    simp only at hchain ⊢
    rw [hchain]
  unfold Wallet2.makeRoom at hroom
  split_ifs at hroom with heq
  · cases hroom
    rw [heq, List.take_length] at hback
    rw [← hback]
  · have hbelow : Below d w := by
      rw [hw, ← hlen₁]
      exact ⟨hs₁.below.transfers, hs₁.below.payments⟩
    rw [detachBlockchain_below hbelow] at hroom
    cases hroom
    rw [hback]

theorem Synced.extend (hc : ch ∈ D.chains) {d n : ℕ} (hd : 0 < d) (hle : d ≤ ch.length)
    (h : Synced E D w₀ (ch.take d) w) (hadd : addAll E ((ch.drop d).take n) w = .ok w') :
    Synced E D w₀ (ch.take (d + n)) w' := by
  refine ⟨⟨ch, hc, d + n, by omega, rfl⟩, ?_⟩
  have hne : ch.take d ≠ [] := by
    rw [Ne, List.take_eq_nil_iff, not_or]
    exact ⟨by omega, by rintro rfl; simp at hle; omega⟩
  rw [List.take_add, List.tail_append_of_ne_nil hne, addAll_append, h.folded, ok_bind, hadd]

/-- One successful call that meets the condition. -/
theorem Synced.pull (hw₀ : w₀ = w₀.clear E.toEnv) (h : Synced E D w₀ p w) (hc : ch ∈ D.chains)
    (hquiet : QuietSplit E D ch w) {added : ℕ}
    (hpull : pullBlocks E (serve E.toEnv ch) w = .ok (added, w')) :
    ∃ p', Synced E D w₀ p' w' := by
  obtain ⟨d, hagree, htake⟩ := h.agree hw₀ hc
  have hlen := h.length hw₀
  obtain ⟨start, hlt, -, hstart⟩ := exists_start hagree.pos hagree.le
  have hserve := hstart _ _ hagree
  have hcall := pullBlocks_of_agree hlt (D.isBlock ch hc) hagree hserve
  rw [hpull] at hcall
  simp only at hcall
  split_ifs at hcall with hl hd
  · cases hcall
    exact ⟨p, h⟩
  all_goals
    obtain ⟨w₁, hroom, hrest⟩ := bind_eq_ok.mp hcall.symm
    obtain ⟨w₂, hadd, hok⟩ := bind_eq_ok.mp hrest
    cases hok
    have h₁ := h.makeRoom hw₀ hagree.pos (hlen ▸ hagree.le) ?_ hroom
    · rw [htake] at h₁
      exact ⟨_, h₁.extend hc hagree.pos hagree.le_chain hadd⟩
  · rw [hd, hlen, List.drop_length]
    simp
  · -- a block of the wallet above the split was served under the id the wallet has for it
    intro sb hsb
    obtain ⟨i, hi⟩ := List.mem_iff_getElem?.mp hsb
    rw [List.getElem?_drop] at hi
    obtain ⟨c₀, hc₀, k, -, hp⟩ := h.chain
    have hmem : sb ∈ c₀ := List.mem_of_mem_take (hp ▸ List.mem_iff_getElem?.mpr ⟨_, hi⟩)
    obtain ⟨id, hid⟩ := Option.isSome_iff_exists.mp (D.isBlock c₀ hc₀ sb hmem)
    refine hquiet start _ d hserve (splitHeight_of_agree hagree hlt hl hd) id ?_ c₀ hc₀ sb hmem hid
    refine List.mem_iff_getElem?.mpr ⟨i, ?_⟩
    rw [List.getElem?_drop, h.getElem? hw₀, hi]
    exact hid

theorem Synced.pullAll (hw₀ : w₀ = w₀.clear E.toEnv) (h : Synced E D w₀ p w)
    {cs : List (List ServedBlock)} (hcs : ∀ ch ∈ cs, ch ∈ D.chains) (hquiet : QuietRun E D cs w)
    (hrun : pullAll E cs w = .ok w') : ∃ p', Synced E D w₀ p' w' := by
  induction cs generalizing p w with
  | nil =>
    cases hrun
    exact ⟨p, h⟩
  | cons ch cs ih =>
    obtain ⟨⟨added, w₁⟩, hpull, hrest⟩ := bind_eq_ok.mp hrun
    obtain ⟨p₁, h₁⟩ := h.pull hw₀ (hcs ch (by simp)) hquiet.1 hpull
    exact ih h₁ (fun ch' hc' => hcs ch' (by simp [hc'])) (hquiet.2 _ hpull) hrest

theorem Synced.fresh (hc : ch ∈ D.chains) : Synced E D w₀ (ch.take 1) w₀ := by
  refine ⟨⟨ch, hc, 1, Nat.one_pos, rfl⟩, ?_⟩
  cases ch <;> rfl

theorem Synced.agree_of_take (hw₀ : w₀ = w₀.clear E.toEnv) (hc : ch ∈ D.chains) {k : ℕ} (hk : 0 < k)
    (hle : k ≤ ch.length) (h : Synced E D w₀ (ch.take k) w) :
    AgreeUpTo E.toEnv ch w.blockchain k ∧ w.blockchain.length = k := by
  have hlen : w.blockchain.length = k := by
    rw [h.length hw₀, List.length_take]
    omega
  obtain ⟨d, hagree, -⟩ := h.agree hw₀ hc
  suffices d = k from ⟨this ▸ hagree, hlen⟩
  have hle' := hagree.le
  have htop : k - 1 < ch.length := by omega
  obtain ⟨id, hid⟩ := Option.isSome_iff_exists.mp (D.isBlock ch hc ch[k - 1] (List.getElem_mem htop))
  have hcid : (ch[k - 1]?).bind (ServedBlock.id? E.toEnv) = some id := by
    rw [List.getElem?_eq_getElem htop]
    exact hid
  have hwid : w.blockchain[k - 1]? = some id := by
    rw [h.getElem? hw₀, List.getElem?_take_of_lt (by omega), hcid]
  have := (hagree.apart _ _ id hwid hcid).2
  omega

theorem Synced.pullBlocks_eq (hw₀ : w₀ = w₀.clear E.toEnv) (hc : ch ∈ D.chains) {k : ℕ} (hk : 0 < k)
    (hle : k ≤ ch.length) (h : Synced E D w₀ (ch.take k) w) :
    ∃ n, 0 < n ∧ pullBlocks E (serve E.toEnv ch) w =
      addAll E ((ch.drop k).take n) w >>= fun w' => .ok (((ch.drop k).take n).length, w') := by
  obtain ⟨hagree, hlen⟩ := h.agree_of_take hw₀ hc hk hle
  refine ⟨COMMAND_RPC_GET_BLOCKS_FAST_MAX_COUNT - 1, by decide, ?_⟩
  rw [pullBlocks_on_chain (D.isBlock ch hc) (hlen.symm ▸ hagree), hlen]

theorem Synced.pullAll_replicate (hw₀ : w₀ = w₀.clear E.toEnv) (hc : ch ∈ D.chains) {k : ℕ} (hk : 0 < k)
    (hle : k ≤ ch.length) (h : Synced E D w₀ (ch.take k) w) {n : ℕ}
    (hrun : Wallet2.pullAll E (List.replicate n ch) w = .ok w') :
    ∃ k' ≤ ch.length, 0 < k' ∧ Synced E D w₀ (ch.take k') w' := by
  induction n generalizing k w with
  | zero =>
    cases hrun
    exact ⟨k, hle, hk, h⟩
  | succ n ih =>
    obtain ⟨⟨added, w₁⟩, hpull, hrest⟩ := bind_eq_ok.mp hrun
    obtain ⟨m, -, hcall⟩ := h.pullBlocks_eq hw₀ hc hk hle
    rw [hpull] at hcall
    obtain ⟨w₂, hadd, hok⟩ := bind_eq_ok.mp hcall.symm
    cases hok
    have h₂ := h.extend hc hk hle hadd
    have hmin : ch.take (k + m) = ch.take (min (k + m) ch.length) := by
      rw [← List.take_take, List.take_length]
    exact ih (by omega) (Nat.min_le_right _ _) (hmin ▸ h₂) hrest

/-- A wallet that can take all blocks of a chain does so in some number of calls. -/
theorem Synced.exists_pullAll (hw₀ : w₀ = w₀.clear E.toEnv) (hc : ch ∈ D.chains) {k : ℕ} (hk : 0 < k)
    (hle : k ≤ ch.length) (h : Synced E D w₀ (ch.take k) w)
    (hrest : addAll E (ch.drop k) w = .ok w') :
    ∃ n, Wallet2.pullAll E (List.replicate n ch) w = .ok w' := by
  induction hm : ch.length - k using Nat.strong_induction_on generalizing k w with
  | _ m ih =>
    by_cases hend : k = ch.length
    · rw [hend, List.drop_length] at hrest
      exact ⟨0, hrest⟩
    · obtain ⟨n, hn, hcall⟩ := h.pullBlocks_eq hw₀ hc hk hle
      rw [← List.take_append_drop n (ch.drop k), addAll_append] at hrest
      obtain ⟨w₁, hadd, hrest⟩ := bind_eq_ok.mp hrest
      have h₁ := h.extend hc hk hle hadd
      have hmin : ch.take (k + n) = ch.take (min (k + n) ch.length) := by
        rw [← List.take_take, List.take_length]
      have hdrop : (ch.drop k).drop n = ch.drop (min (k + n) ch.length) := by
        rw [List.drop_drop]
        rcases le_total (k + n) ch.length with hle' | hle'
        · rw [Nat.min_eq_left hle']
        · rw [Nat.min_eq_right hle', List.drop_length, List.drop_eq_nil_of_le hle']
      obtain ⟨n', hn'⟩ := ih (ch.length - min (k + n) ch.length) (by omega) (by omega)
        (Nat.min_le_right _ _) (hmin ▸ h₁) (hdrop ▸ hrest) rfl
      refine ⟨n' + 1, ?_⟩
      rw [List.replicate_succ, Wallet2.pullAll, hcall, hadd]
      exact hn'

/-- A wallet whose blocks are a chain of the daemon is the fold of that chain. -/
theorem Synced.of_blockchain (hw₀ : w₀ = w₀.clear E.toEnv) (hc : ch ∈ D.chains) (h : Synced E D w₀ p w)
    (hall : w.blockchain.map some = ch.map (ServedBlock.id? E.toEnv)) : p = ch := by
  have hlen := h.length hw₀
  have hlenc : w.blockchain.length = ch.length := by simpa using congrArg List.length hall
  obtain ⟨d, hagree, htake⟩ := h.agree hw₀ hc
  have hle := hagree.le
  have hd : d = ch.length := by
    have hpos := hagree.pos
    have htop : ch.length - 1 < w.blockchain.length := by omega
    have hid := List.getElem?_eq_getElem htop
    have := congrArg (fun l => l[ch.length - 1]?) hall
    simp only [List.getElem?_map, hid, Option.map_some] at this
    have hcid : (ch[ch.length - 1]?).bind (ServedBlock.id? E.toEnv) =
        some w.blockchain[ch.length - 1] := by
      cases hcl : ch[ch.length - 1]? with
      | none => simp [hcl] at this
      | some sb =>
        rw [hcl, Option.map_some] at this
        exact (Option.some.inj this).symm
    have := (hagree.apart _ _ _ hid hcid).2
    omega
  rw [hd, List.take_length, ← hlenc, hlen, List.take_length] at htake
  exact htake

end Runs

/-- A wallet that pulled through reorganisations without a transaction of its own in a detached block,
and has the blocks of the daemon's chain, is the one that pulled this chain from genesis. -/
theorem pulled_eq_fresh (E : WalletEnv) (D : Daemon E.toEnv) (w₀ w : Wallet2)
    (hfresh : w₀ = w₀.clear E.toEnv) (cs : List (List ServedBlock)) (hcs : ∀ ch ∈ cs, ch ∈ D.chains)
    (hrun : pullAll E cs w₀ = .ok w) (hquiet : QuietRun E D cs w₀) (ch : List ServedBlock)
    (hc : ch ∈ D.chains) (hall : w.blockchain.map some = ch.map (ServedBlock.id? E.toEnv)) :
    (∃ n, pullAll E (List.replicate n ch) w₀ = .ok w) ∧
    ∀ n w', pullAll E (List.replicate n ch) w₀ = .ok w' → w'.blockchain = w.blockchain →
      w'.transfers = w.transfers ∧ w'.keyImages = w.keyImages ∧ w'.payments = w.payments ∧
      w'.transferHistory = w.transferHistory ∧ w'.balance = w.balance := by
  have hpos : 1 ≤ ch.length := by
    have hg := D.genesis ch hc
    cases ch with
    | nil => cases hg
    | cons sb ch => simp
  obtain ⟨p, hp⟩ := (Synced.fresh hc).pullAll hfresh hcs hquiet hrun
  obtain rfl := hp.of_blockchain hfresh hc hall
  constructor
  · refine (Synced.fresh hc).exists_pullAll hfresh hc Nat.one_pos hpos ?_
    rw [List.drop_one]
    exact hp.folded
  · intro n w' hrun' hchain
    obtain ⟨k, hk, hk₀, hw'⟩ :=
      (Synced.fresh hc).pullAll_replicate hfresh hc Nat.one_pos hpos hrun'
    have hlen : k = p.length := by
      have := hw'.length hfresh
      rw [hchain, hp.length hfresh, List.length_take] at this
      omega
    have hfold := hw'.folded
    rw [hlen, List.take_length, hp.folded] at hfold
    cases hfold
    exact ⟨rfl, rfl, rfl, rfl, rfl⟩

theorem mem_fork {p q q' ch : List ServedBlock} (hc : ch ∈ ({p ++ q, p ++ q'} : Set (List ServedBlock)))
    {sb : ServedBlock} (hsb : sb ∈ ch) : sb ∈ p ++ (q ++ q') := by
  rcases hc with rfl | rfl
  · simp only [List.mem_append] at hsb ⊢
    tauto
  · simp only [List.mem_append] at hsb ⊢
    tauto

/-- A daemon that changes between two chains with the common part `p`. -/
def forkDaemon (E : Env) (p q q' : List ServedBlock)
    (hid : ∀ sb ∈ p ++ (q ++ q'), (sb.id? E).isSome)
    (hgenesis : p.head?.bind (ServedBlock.id? E) = some (getBlockHash E generateGenesisBlock))
    (hnodup : ((p ++ (q ++ q')).map (ServedBlock.id? E)).Nodup) : Daemon E where
  chains := {p ++ q, p ++ q'}
  isBlock _ hc sb hsb := hid sb (mem_fork hc hsb)
  genesis := by
    have hhead : ∀ r, (p ++ r).head?.bind (ServedBlock.id? E) =
        some (getBlockHash E generateGenesisBlock) := by
      intro r
      cases p with
      | nil => cases hgenesis
      | cons sb p => exact hgenesis
    rintro ch (rfl | rfl)
    · exact hhead q
    · exact hhead q'
  coherent := by
    -- both blocks stand in `p ++ (q ++ q')`, where an id stands once
    have hat : ∀ ch ∈ ({p ++ q, p ++ q'} : Set (List ServedBlock)), ∀ i sb, ch[i]? = some sb →
        ∃ k, (p ++ (q ++ q'))[k]? = some sb ∧ (i < p.length → k = i) ∧
          (p.length ≤ i → ch = p ++ q ∧ k = i ∧ k < p.length + q.length ∨
            ch = p ++ q' ∧ k = i + q.length) := by
      rintro ch (rfl | rfl) i sb hi
      · have hlt := (List.getElem?_eq_some_iff.mp hi).1
        rw [List.length_append] at hlt
        refine ⟨i, ?_, fun _ => rfl, fun _ => Or.inl ⟨rfl, rfl, hlt⟩⟩
        rw [← List.append_assoc, List.getElem?_append_left (by simpa using hlt), hi]
      · by_cases hp : i < p.length
        · refine ⟨i, ?_, fun _ => rfl, fun h => absurd hp (by omega)⟩
          rw [List.getElem?_append_left hp] at hi ⊢
          exact hi
        · refine ⟨i + q.length, ?_, fun h => absurd h hp, fun _ => Or.inr ⟨rfl, rfl⟩⟩
          rw [List.getElem?_append_right (by omega)] at hi ⊢
          rw [List.getElem?_append_right (by omega), ← hi]
          congr 1
          omega
    intro ch hc ch' hc' i j id hi hj
    obtain ⟨sb, hsb, hidi⟩ := Option.bind_eq_some_iff.mp hi
    obtain ⟨sb', hsb', hidj⟩ := Option.bind_eq_some_iff.mp hj
    obtain ⟨k, hk, hki, hkc⟩ := hat ch hc i sb hsb
    obtain ⟨k', hk', hkj, hkc'⟩ := hat ch' hc' j sb' hsb'
    have hkk : k = k' := by
      refine (List.getElem?_inj ?_ hnodup).mp ?_
      · rw [List.length_map]
        exact (List.getElem?_eq_some_iff.mp hk).1
      · rw [List.getElem?_map, List.getElem?_map, hk, hk', Option.map_some, Option.map_some, hidi,
          hidj]
    have hshared : ∀ ch ∈ ({p ++ q, p ++ q'} : Set (List ServedBlock)), ∀ i < p.length,
        ch.take (i + 1) = p.take (i + 1) := by
      rintro ch (rfl | rfl) i hi <;> exact List.take_append_of_le_length hi
    by_cases hip : i < p.length
    · obtain rfl := hki hip
      by_cases hjp : j < p.length
      · obtain rfl := hkj hjp
        rw [hshared ch hc _ hip, hkk, hshared ch' hc' _ hjp]
      · rcases hkc' (by omega) with ⟨-, hj', -⟩ | ⟨-, hj'⟩ <;> omega
    · by_cases hjp : j < p.length
      · have := hkj hjp
        rcases hkc (by omega) with ⟨-, hi', -⟩ | ⟨-, hi'⟩ <;> omega
      · rcases hkc (by omega) with ⟨rfl, hi', hlt⟩ | ⟨rfl, hi'⟩ <;>
          rcases hkc' (by omega) with ⟨rfl, hj', hlt'⟩ | ⟨rfl, hj'⟩
        · rw [show i = j by omega]
        · omega
        · omega
        · rw [show i = j by omega]

/-- The sample chains: the first block after genesis pays the wallet. -/
def samplePaid : List ServedBlock := [sampleGenesis, sampleServed 1 0 [sampleOut 5 1] []]

def sampleSpend : Transaction := sampleTx 9 [sampleIn 5 1] []

def sampleSpentBlock : ServedBlock := sampleServed 2 0 [] [sampleSpend]

def sampleEmptyBlock (nonce : UInt64) : ServedBlock := sampleServed 2 nonce [] []

def emptyFork : Daemon sampleWalletEnv.toEnv :=
  forkDaemon sampleWalletEnv.toEnv samplePaid [sampleEmptyBlock 1] [sampleEmptyBlock 2] (by decide +kernel)
    (by decide +kernel) (by decide +kernel)

theorem pulled_eq_fresh_emptyFork : ∃ w,
    pullAll sampleWalletEnv [samplePaid ++ [sampleEmptyBlock 1], samplePaid ++ [sampleEmptyBlock 2]]
      (sampleWallet false) = .ok w ∧
    w.transfers.length = 1 ∧
    ∃ n, pullAll sampleWalletEnv (List.replicate n (samplePaid ++ [sampleEmptyBlock 2]))
      (sampleWallet false) = .ok w := by
  have hids : ((samplePaid ++ ([sampleEmptyBlock 1] ++ [sampleEmptyBlock 2])).map
      (ServedBlock.id? sampleWalletEnv.toEnv)).Nodup := by decide +kernel
  have hsplit₀ : (serve sampleWalletEnv.toEnv (samplePaid ++ [sampleEmptyBlock 1])
      (walletShortChainHistory (sampleWallet false).blockchain)).bind (fun a =>
        splitHeight sampleWalletEnv.toEnv (sampleWallet false).blockchain a.1 a.2) = none := by decide +kernel
  have h : ((pullBlocks sampleWalletEnv (serve sampleWalletEnv.toEnv (samplePaid ++ [sampleEmptyBlock 1]))
      (sampleWallet false)).toOption.map fun r =>
        ((r.2.blockchain.drop 2).map some, (serve sampleWalletEnv.toEnv (samplePaid ++ [sampleEmptyBlock 2])
            (walletShortChainHistory r.2.blockchain)).bind (fun a =>
              splitHeight sampleWalletEnv.toEnv r.2.blockchain a.1 a.2),
          touchesBlock sampleWalletEnv r.2 (sampleEmptyBlock 1),
          (pullBlocks sampleWalletEnv (serve sampleWalletEnv.toEnv (samplePaid ++ [sampleEmptyBlock 2]))
            r.2).toOption.map fun r' => (r'.2.transfers.length,
              decide (r'.2.blockchain.map some = (samplePaid ++ [sampleEmptyBlock 2]).map
                (ServedBlock.id? sampleWalletEnv.toEnv))))) =
      some ([(sampleEmptyBlock 1).id? sampleWalletEnv.toEnv], some 2, false, some (1, true)) := by
    decide +kernel
  obtain ⟨r, hr, h⟩ := Option.map_eq_some_iff.mp h
  simp only [Prod.mk.injEq] at h
  obtain ⟨hdrop, hsplit, htouch, h⟩ := h
  obtain ⟨r', hr', h⟩ := Option.map_eq_some_iff.mp h
  simp only [Prod.mk.injEq, decide_eq_true_eq] at h
  obtain ⟨hlen, hall⟩ := h
  rw [toOption_eq_some] at hr hr'
  have hrun : pullAll sampleWalletEnv [samplePaid ++ [sampleEmptyBlock 1],
      samplePaid ++ [sampleEmptyBlock 2]] (sampleWallet false) = .ok r'.2 := by
    simp only [pullAll]
    rw [hr, ok_bind, hr', ok_bind]
  have hquiet : QuietRun sampleWalletEnv emptyFork [samplePaid ++ [sampleEmptyBlock 1],
      samplePaid ++ [sampleEmptyBlock 2]] (sampleWallet false) := by
    refine ⟨fun start blocks d hserve hd => ?_, fun r₁ hr₁ =>
      ⟨fun start blocks d hserve hd id hid ch' hc' sb hsb hsbid => ?_, fun _ _ => trivial⟩⟩
    · rw [hserve, Option.bind_some] at hsplit₀
      exact absurd (hsplit₀.symm.trans hd) (by simp)
    · obtain rfl : r = r₁ := Except.ok.inj (hr.symm.trans hr₁)
      rw [hserve, Option.bind_some] at hsplit
      obtain rfl : 2 = d := Option.some.inj (hsplit.symm.trans hd)
      have hmem : some id ∈ [(sampleEmptyBlock 1).id? sampleWalletEnv.toEnv] :=
        hdrop ▸ List.mem_map_of_mem hid
      -- the only served block with the detached id
      have hsb' : sb ∈ samplePaid ++ ([sampleEmptyBlock 1] ++ [sampleEmptyBlock 2]) :=
        mem_fork hc' hsb
      have heq : sb = sampleEmptyBlock 1 := List.inj_on_of_nodup_map hids hsb' (by simp)
        (hsbid.trans (List.mem_singleton.mp hmem))
      rw [heq]
      exact htouch
  have hmem₁ : samplePaid ++ [sampleEmptyBlock 1] ∈ emptyFork.chains := Or.inl rfl
  have hmem₂ : samplePaid ++ [sampleEmptyBlock 2] ∈ emptyFork.chains := Or.inr rfl
  refine ⟨r'.2, hrun, hlen, (pulled_eq_fresh sampleWalletEnv emptyFork (sampleWallet false) r'.2 rfl _
    ?_ hrun hquiet _ hmem₂ hall).1⟩
  intro ch hc
  rcases List.mem_cons.mp hc with rfl | hc
  · exact hmem₁
  · rw [List.mem_singleton.mp hc]
    exact hmem₂

/-- The daemon replaces a block that spends the wallet's output. -/
def spendFork : Daemon sampleWalletEnv.toEnv :=
  forkDaemon sampleWalletEnv.toEnv samplePaid [sampleSpentBlock] [sampleEmptyBlock 2] (by decide +kernel)
    (by decide +kernel) (by decide +kernel)

/-- After the reorganisation the output still counts as spent, and the spend is still in the history. -/
theorem spend_left_by_split : ∃ ch ∈ spendFork.chains, ∃ ch' ∈ spendFork.chains, ∃ w w',
    pullAll sampleWalletEnv [ch, ch'] (sampleWallet false) = .ok w ∧
    pullAll sampleWalletEnv [ch'] (sampleWallet false) = .ok w' ∧
    w.blockchain.map some = ch'.map (ServedBlock.id? sampleWalletEnv.toEnv) ∧ w'.blockchain = w.blockchain ∧
    w.transfers ≠ w'.transfers ∧ w.transferHistory ≠ w'.transferHistory ∧ w.balance ≠ w'.balance := by
  refine ⟨_, Or.inl rfl, _, Or.inr rfl, ?_⟩
  have h : ((pullAll sampleWalletEnv [samplePaid ++ [sampleSpentBlock],
      samplePaid ++ [sampleEmptyBlock 2]] (sampleWallet false)).toOption.bind fun w =>
        (pullAll sampleWalletEnv [samplePaid ++ [sampleEmptyBlock 2]]
          (sampleWallet false)).toOption.map fun w' =>
            decide (w.blockchain.map some = (samplePaid ++ [sampleEmptyBlock 2]).map
                (ServedBlock.id? sampleWalletEnv.toEnv) ∧ w'.blockchain = w.blockchain ∧
              w.transfers ≠ w'.transfers ∧ w.transferHistory ≠ w'.transferHistory ∧
              w.balance ≠ w'.balance)) = some true := by decide +kernel
  obtain ⟨w, hw, h⟩ := Option.bind_eq_some_iff.mp h
  obtain ⟨w', hw', h⟩ := Option.map_eq_some_iff.mp h
  rw [toOption_eq_some] at hw hw'
  exact ⟨w, w', hw, hw', of_decide_eq_true h⟩

end Wallet2

end Boolberry
