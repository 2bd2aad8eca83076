import Boolberry.Supply
import Boolberry.WalletSync

/-!
# Retrying a call that failed

A block is handled transaction by transaction and recorded at the end, so after a
request that failed in the middle the transactions before it are handled again. That
leaves no trace when each of them only paid the wallet outputs whose key images it knows:
the second time these outputs are skipped, and nothing is left to record.
-/

namespace Boolberry
open KeyValue Aborting

/-- What a daemon that fails at times reports for a block: some of its answers are missing. -/
def Degraded (sb' sb : ServedBlock) : Prop :=
  sb'.block = sb.block ∧ sb'.txs = sb.txs ∧ ∀ i, sb'.oIndexes i = none ∨ sb'.oIndexes i = sb.oIndexes i

/-- The answer to one call of `pull_blocks`: `none` when the call for the blocks fails, else the main
chain with the answers that were given while its blocks were handled. -/
def answerOf (E : Env) : Option (List ServedBlock) → GetBlocksFast
  | none => fun _ => none
  | some ch => serve E ch

namespace Wallet2

/-- The outputs of a transaction that pay the account, with its public key and their wrapping sum. -/
def ownOuts (E : WalletEnv) (w : Wallet2) (tx : Transaction) : Option (PublicKey × List ℕ × UInt64) :=
  (parseAndValidateTxExtra E.toEnv tx).bind fun tei =>
    (lookupAccOuts E.toEnv w.account.keys tei.txPubKey 0 tx.vout).map fun r => (tei.txPubKey, r)

/-- Output `o` has a key image that the wallet knows. -/
def imageKnown (E : WalletEnv) (w : Wallet2) (txPubKey : PublicKey) (tx : Transaction) (o : ℕ) : Bool :=
  match tx.vout[o]? with
  | some ⟨_, .toKey otk⟩ =>
      match (outputKeyImage E w txPubKey o otk.key).bind w.findKnown with
      | some p => decide (p < w.transfers.length)
      | none => false
  | _ => false

/-- A transaction that changes nothing when it is handled: it spends no output the wallet knows, and
the key images of its own outputs are known. With amounts that overflow the known ones would not add up. -/
def repeatable (E : WalletEnv) (w : Wallet2) (tx : Transaction) : Bool :=
  match ownOuts E w tx with
  | none => false
  | some (txPubKey, outs, money) =>
      ((toKeyInputs tx).all fun inp => (w.keyImages.get inp.kImage).isNone) &&
      (decide (outs = [] ∨ money = 0) || checkOutsOverflow tx && outs.all (imageKnown E w txPubKey tx))

/-- The wallet asks for the global indexes of the transaction and gets no answer. -/
def refused (E : WalletEnv) (oIndexes : Option (List UInt64)) (w : Wallet2) (tx : Transaction) : Bool :=
  match ownOuts E w tx with
  | none => false
  | some (_, outs, money) => decide (outs ≠ [] ∧ money ≠ 0) && oIndexes.isNone

/-- If handling the transactions from the `i`-th on throws, it is at a request without an answer, for
a transaction that was not sent from this wallet, and `done` and the transactions handled since are
repeatable. -/
def cleanTxs (E : WalletEnv) (oIndexes : ℕ → Option (List UInt64)) (height : ℕ) (b : Block) :
    List Transaction → ℕ → List (Option Transaction) → Wallet2 → Bool
  | _, _, [], _ => true
  | _, _, none :: _, _ => false
  | done, i, some tx :: l, w =>
      match processNewTransaction E (oIndexes i) tx height b w with
      | .ok w' => cleanTxs E oIndexes height b (done ++ [tx]) (i + 1) l w'
      | .error _ => refused E (oIndexes i) w tx &&
          (w.unconfirmedTxs.get (getTransactionHash E.toEnv tx)).isNone && done.all (repeatable E w)

/-- The coinbase and the transactions of a block, `none` for a blob that is not a transaction. -/
def blockTxs (sb : ServedBlock) (b : Block) : List (Option Transaction) :=
  some b.minerTx :: sb.txs.map parseAndValidateTxFromBlob

/-- If adding blocks throws, it is at such a request of the block being added. -/
def cleanAdd (E : WalletEnv) : List ServedBlock → Wallet2 → Bool
  | [], _ => true
  | sb :: l, w =>
      match addServed E w sb with
      | .ok w' => cleanAdd E l w'
      | .error _ =>
          match parseAndValidateBlockFromBlob sb.block with
          | none => false
          | some b => cleanTxs E sb.oIndexes w.blockchain.length b [] 0 (blockTxs sb b) w

/-- A call of `pull_blocks` against the chain `ch` that throws does so at such a request, and not at a
split block with which the answer ends while the chain goes on. -/
def cleanPull (E : WalletEnv) (ch : List ServedBlock) (w : Wallet2) : Bool :=
  match serve E.toEnv ch (walletShortChainHistory w.blockchain) with
  | none => true
  | some (start, blocks) =>
      match splitHeight E.toEnv w.blockchain start blocks with
      | none => cleanAdd E (blocks.drop (w.blockchain.length - start)) w
      | some h =>
          match detachBlockchain h w with
          | .error _ => true
          | .ok w' => cleanAdd E (blocks.drop (h - start)) w' &&
              (decide (start + blocks.length = h + 1 → ch.length = h + 1) ||
                (addAll E (blocks.drop (h - start)) w').isOk)

/-- Every call of a refresh that throws meets the condition where it is made. -/
def cleanRun (E : WalletEnv) : List (Option (List ServedBlock)) → Wallet2 → Prop
  | [], _ => True
  | a :: l, w => (∀ ch, a = some ch → cleanPull E ch w = true) ∧
      cleanRun E l (stateLeft Prod.snd (pullBlocks E (answerOf E.toEnv a) w))

section Again

variable {E : WalletEnv} {w w' w₁ w₂ : Wallet2} {tx : Transaction} {height : ℕ} {b : Block}

/-- A result without an answer to the request is the result with any answer. -/
theorem processNewTransaction_of_none
    (h : processNewTransaction E none tx height b w = .ok w') (oIndexes : Option (List UInt64)) :
    processNewTransaction E oIndexes tx height b w = .ok w' := by
  have hreceive : ∀ {txPubKey outs money s} {w : Wallet2},
      receiveMoney E none tx txPubKey height outs money w = .ok s →
      receiveMoney E oIndexes tx txPubKey height outs money w = .ok s := by
    intro txPubKey outs money s w hs
    unfold receiveMoney at hs ⊢
    split_ifs at hs ⊢ with hmoney
    exact hs
  unfold processNewTransaction at h ⊢
  simp only at h ⊢
  split
  · next htei =>
    simp only [htei] at h
    cases h
  · next tei htei =>
    simp only [htei] at h
    split
    · next houts =>
      simp only [houts] at h
      cases h
    · next outs money houts =>
      simp only [houts] at h
      obtain ⟨s, hs, hrest⟩ := bind_eq_ok.mp h
      rw [hreceive hs, ok_bind]
      exact hrest

theorem processNewTransaction_degraded {oIndexes oIndexes' : Option (List UInt64)}
    (hans : oIndexes' = none ∨ oIndexes' = oIndexes)
    (h : processNewTransaction E oIndexes' tx height b w = .ok w') :
    processNewTransaction E oIndexes tx height b w = .ok w' := by
  rcases hans with rfl | rfl
  · exact processNewTransaction_of_none h _
  · exact h

/-- The amounts of the outputs at the given positions. -/
def ownSum (tx : Transaction) (outs : List ℕ) : ℕ :=
  (outs.map fun o => ((tx.vout[o]?).map fun out => out.amount.toNat).getD 0).sum

theorem lookupAccOuts_sum {acc : AccountKeys} {txPubKey : PublicKey} {pre l : List TxOut}
    {outs : List ℕ} {money : UInt64} (hvout : tx.vout = pre ++ l)
    (h : lookupAccOuts E.toEnv acc txPubKey pre.length l = some (outs, money)) :
    money.toNat = ownSum tx outs % 2 ^ 64 ∧
      ownSum tx outs ≤ (l.map fun o => o.amount.toNat).sum := by
  induction l generalizing pre outs money with
  | nil =>
    unfold lookupAccOuts at h
    cases h
    simp [ownSum]
  | cons o l ih =>
    unfold lookupAccOuts at h
    split at h
    · obtain ⟨⟨outs', money'⟩, hr, hif⟩ := Option.map_eq_some_iff.mp h
      obtain ⟨hmod, hle⟩ := ih (show tx.vout = (pre ++ [o]) ++ l by simp [hvout]) (by simpa using hr)
      have hat : tx.vout[pre.length]? = some o := by simp [hvout]
      split_ifs at hif
      · cases hif
        simp only [ownSum, List.map_cons, List.sum_cons, hat, Option.map_some, Option.getD_some]
          at hmod hle ⊢
        refine ⟨?_, by omega⟩
        rw [UInt64.toNat_add, hmod]
        simp
      · cases hif
        refine ⟨hmod, hle.trans ?_⟩
        rw [List.map_cons, List.sum_cons]
        omega
    · cases h

/-- Outputs whose images are known are skipped one by one, until no money is left. -/
theorem receiveOuts_known {txPubKey : PublicKey} {oIndexes : List UInt64} {outs : List ℕ} {s : TxScan}
    (hs : s.wallet = w) (hmoney : s.moneyGot.toNat = ownSum tx outs)
    (hknown : ∀ o ∈ outs, imageKnown E w txPubKey tx o = true) :
    outs.foldlM (receiveOut E tx txPubKey height oIndexes) s = .ok { s with moneyGot := 0 } := by
  induction outs generalizing s with
  | nil =>
    have : s.moneyGot = 0 := UInt64.toNat_inj.mp (by simpa [ownSum] using hmoney)
    rw [List.foldlM_nil, ← this]
    rfl
  | cons o outs ih =>
    have ho := hknown o (by simp)
    unfold imageKnown at ho
    split at ho
    · next amount otk hout =>
      split at ho
      · next p hp =>
        obtain ⟨ki, hki, hfind⟩ := Option.bind_eq_some_iff.mp hp
        have hplt := of_decide_eq_true ho
        have hsum : s.moneyGot.toNat = amount.toNat + ownSum tx outs := by
          rw [hmoney, ownSum, List.map_cons, List.sum_cons, hout]
          rfl
        have hle : amount ≤ s.moneyGot := UInt64.le_iff_toNat_le.mpr (by omega)
        have hround : receiveOut E tx txPubKey height oIndexes s o =
            .ok { s with moneyGot := s.moneyGot - amount } := by
          unfold receiveOut
          simp only [hout, hs, hki, hfind]
          rw [if_neg]
          rintro (h | h)
          · omega
          · exact absurd h (by simpa using hle)
        rw [List.foldlM_cons, hround, ok_bind]
        refine ih hs ?_ fun o' ho' => hknown o' (by simp [ho'])
        rw [UInt64.toNat_sub_of_le _ _ hle]
        omega
      · cases ho
    · cases ho

theorem Changes.unconfirmed_none {txHash : Hash} (h : Changes E height w w')
    (hu : w.unconfirmedTxs.get txHash = none) : w'.unconfirmedTxs.get txHash = none := by
  induction h with
  | refl => exact hu
  | tail _ hstep ih =>
    cases hstep with
    | unconfirmed k =>
      rw [Map.get_erase]
      split_ifs
      · rfl
      · exact ih
    | _ => exact ih

theorem processUnconfirmed_none (E : Env) (tx : Transaction) (w : Wallet2) :
    (processUnconfirmed E tx w).2.unconfirmedTxs.get (getTransactionHash E tx) = none := by
  unfold processUnconfirmed
  split
  · next h => exact h
  · exact Map.get_erase_self _ _

theorem processNewTransaction_ok {oIndexes : Option (List UInt64)}
    (h : processNewTransaction E oIndexes tx height b w = .ok w') :
    ∃ txPubKey outs money, ownOuts E w tx = some (txPubKey, outs, money) ∧
      (outs ≠ [] ∧ money ≠ 0 → ∃ l, oIndexes = some l ∧ l.length = tx.vout.length) ∧
      w'.unconfirmedTxs.get (getTransactionHash E.toEnv tx) = none ∧ Changes E height w w' := by
  have hchanges : Leaves (Changes E height w) id (processNewTransaction E oIndexes tx height b w) :=
    processNewTransaction_changes Changes.refl
  rw [h, leaves_ok] at hchanges
  have hnone := processUnconfirmed_none E.toEnv tx w
  unfold processNewTransaction at h
  simp only at h
  split at h
  · cases h
  · next tei htei =>
    split at h
    · cases h
    · next outs money houts =>
      obtain ⟨s, hs, hrest⟩ := bind_eq_ok.mp h
      obtain ⟨s', hs', hrest⟩ := bind_eq_ok.mp hrest
      have hreceive : Leaves (Changes E height (processUnconfirmed E.toEnv tx w).2) TxScan.wallet
          (receiveMoney E oIndexes tx tei.txPubKey height outs money
            (processUnconfirmed E.toEnv tx w).2) := receiveMoney_changes Changes.refl
      rw [hs, leaves_ok] at hreceive
      have hspend := spendInputs_changes (l := toKeyInputs tx) (i := 0) hreceive
      rw [hs', leaves_ok] at hspend
      have hpayment : Changes E height (processUnconfirmed E.toEnv tx w).2
          (recordPayment E.toEnv tx height s') := recordPayment_changes hspend
      have hhistory : Leaves (Changes E height (processUnconfirmed E.toEnv tx w).2) id
          (recordHistory E.toEnv b tx (processUnconfirmed E.toEnv tx w).1.1
            (processUnconfirmed E.toEnv tx w).1.2 s'.moneyGot s'.moneySpent s'.mtd
            (recordPayment E.toEnv tx height s')) := recordHistory_changes hpayment
      rw [hrest, leaves_ok] at hhistory
      refine ⟨tei.txPubKey, outs, money, ?_, fun hmoney => ?_, hhistory.unconfirmed_none hnone, hchanges⟩
      · rw [ownOuts, htei, Option.bind_some, houts]
        rfl
      · unfold receiveMoney at hs
        rw [if_pos hmoney] at hs
        split at hs
        · cases hs
        · next l =>
          split_ifs at hs with hlen
          exact ⟨l, rfl, not_not.mp hlen⟩

/-- A transaction handled again, at a later state where it is repeatable. -/
theorem processNewTransaction_again {oIndexes : Option (List UInt64)}
    (h : processNewTransaction E oIndexes tx height b w = .ok w₁) (hlater : Changes E height w₁ w₂)
    (hrep : repeatable E w₂ tx = true) :
    processNewTransaction E oIndexes tx height b w₂ = .ok w₂ := by
  obtain ⟨txPubKey, outs, money, hown, hanswer, hnone, hchanges⟩ := processNewTransaction_ok h
  have haccount : w₂.account = w.account :=
    hlater.sameSetup.account.trans hchanges.sameSetup.account
  have hown₂ : ownOuts E w₂ tx = some (txPubKey, outs, money) := by
    rw [← hown, ownOuts, ownOuts, haccount]
  unfold repeatable at hrep
  simp only [hown₂, Bool.and_eq_true, List.all_eq_true, Option.isNone_iff_eq_none, Bool.or_eq_true,
    decide_eq_true_eq] at hrep
  obtain ⟨hinputs, houtputs⟩ := hrep
  obtain ⟨tei, htei, hlookup⟩ := Option.bind_eq_some_iff.mp hown₂
  obtain ⟨r, hr, hrest⟩ := Option.map_eq_some_iff.mp hlookup
  cases hrest
  have hu : processUnconfirmed E.toEnv tx w₂ = (([], []), w₂) := by
    unfold processUnconfirmed
    rw [hlater.unconfirmed_none hnone]
  -- the outputs are skipped, whatever they are
  have hreceive : receiveMoney E oIndexes tx tei.txPubKey height outs money w₂ =
      .ok ⟨0, 0, {}, w₂⟩ := by
    unfold receiveMoney
    split_ifs with hmoney
    · obtain ⟨l, rfl, hlen⟩ := hanswer hmoney
      obtain ⟨hover, hknown⟩ : checkOutsOverflow tx = true ∧
          ∀ o ∈ outs, imageKnown E w₂ tei.txPubKey tx o = true := by
        rcases houtputs with hnil | h'
        · exact absurd hnil (by tauto)
        · exact h'
      have hsum : money.toNat = ownSum tx outs := by
        obtain ⟨hmod, hle⟩ := lookupAccOuts_sum (show tx.vout = [] ++ tx.vout from rfl) hr
        have htotal := checkOverflow_toNat hover
        rw [sumAmounts, List.map_map] at htotal
        have hlt := (List.foldl (· + ·) 0 (tx.vout.map TxOut.amount)).toNat_lt
        have hle' : ownSum tx outs < 2 ^ 64 := by
          refine lt_of_le_of_lt hle (lt_of_eq_of_lt ?_ hlt)
          rw [htotal]
          simp [Function.comp_def]
        rw [hmod, Nat.mod_eq_of_lt hle']
      simp only [hlen, ne_eq, not_true_eq_false, if_false]
      exact receiveOuts_known rfl hsum hknown
    · have hzero : money = 0 := by
        by_contra hne
        have hnil : outs = [] := by tauto
        subst hnil
        exact hne (lookupAccOuts_nil hr)
      rw [hzero]
  have hspend : spendInputs 0 (toKeyInputs tx) ⟨0, 0, {}, w₂⟩ = .ok ⟨0, 0, {}, w₂⟩ :=
    spendInputs_untouched hinputs
  have hpay : recordPayment E.toEnv tx height ⟨0, 0, {}, w₂⟩ = w₂ := by
    unfold recordPayment
    split
    · rfl
    · simp
  unfold processNewTransaction
  simp only [hu, htei, hr, hreceive, ok_bind, hspend, hpay, recordHistory, ne_eq, not_true_eq_false,
    if_false]

/-- The transactions of a block from the `i`-th on, parsed. -/
def handleTxs (E : WalletEnv) (oIndexes : ℕ → Option (List UInt64)) (height : ℕ) (b : Block) :
    ℕ → List (Option Transaction) → Wallet2 → Except Wallet2 Wallet2
  | _, [], w => .ok w
  | _, none :: _, w => .error w
  | i, some tx :: l, w => do
      let w ← processNewTransaction E (oIndexes i) tx height b w
      handleTxs E oIndexes height b (i + 1) l w

theorem processTransactions_eq {oIndexes : ℕ → Option (List UInt64)} {i : ℕ} {l : List Blob} :
    processTransactions E oIndexes height b i l w =
      handleTxs E oIndexes height b i (l.map parseAndValidateTxFromBlob) w := by
  induction l generalizing i w with
  | nil => rfl
  | cons txBlob l ih =>
    rw [processTransactions, List.map_cons]
    cases parseAndValidateTxFromBlob txBlob with
    | none => rfl
    | some tx =>
      simp only [handleTxs]
      cases processNewTransaction E (oIndexes i) tx height b w with
      | error w' => rfl
      | ok w' => exact ih

theorem scanBlock_eq {sb : ServedBlock} (hs : w.isScanned b = true) :
    scanBlock E sb b height w = handleTxs E sb.oIndexes height b 0 (blockTxs sb b) w := by
  unfold scanBlock blockTxs
  rw [hs, if_pos rfl]
  simp only [handleTxs, processTransactions_eq, Nat.zero_add]

theorem handleTxs_changes {oIndexes : ℕ → Option (List UInt64)} {i : ℕ} {l : List (Option Transaction)}
    {w₀ : Wallet2} (h : Changes E height w₀ w) :
    Leaves (Changes E height w₀) id (handleTxs E oIndexes height b i l w) := by
  induction l generalizing i w with
  | nil => exact .ok h
  | cons tx l ih =>
    cases tx with
    | none => exact .error h
    | some tx => exact (processNewTransaction_changes h).bind fun _ hw => ih hw

theorem handleTxs_append {oIndexes : ℕ → Option (List UInt64)} {i : ℕ} {l l' : List (Option Transaction)} :
    handleTxs E oIndexes height b i (l ++ l') w =
      handleTxs E oIndexes height b i l w >>= handleTxs E oIndexes height b (i + l.length) l' := by
  induction l generalizing i w with
  | nil => rfl
  | cons tx l ih =>
    cases tx with
    | none => rfl
    | some tx =>
      rw [List.cons_append, handleTxs, handleTxs, bind_assoc, List.length_cons]
      refine congrArg _ (funext fun w' => ?_)
      rw [ih, Nat.add_assoc, Nat.add_comm 1]

theorem handleTxs_degraded {oIndexes oIndexes' : ℕ → Option (List UInt64)} {i : ℕ}
    {l : List (Option Transaction)} (hans : ∀ i, oIndexes' i = none ∨ oIndexes' i = oIndexes i)
    (h : handleTxs E oIndexes' height b i l w = .ok w') :
    handleTxs E oIndexes height b i l w = .ok w' := by
  induction l generalizing i w with
  | nil => exact h
  | cons tx l ih =>
    cases tx with
    | none => cases h
    | some tx =>
      obtain ⟨w₁, h₁, h₂⟩ := bind_eq_ok.mp h
      rw [handleTxs, processNewTransaction_degraded (hans i) h₁, ok_bind]
      exact ih h₂

theorem handleTxs_again {oIndexes : ℕ → Option (List UInt64)} {i : ℕ} {l : List Transaction}
    (h : handleTxs E oIndexes height b i (l.map some) w = .ok w₁) (hlater : Changes E height w₁ w₂)
    (hrep : ∀ tx ∈ l, repeatable E w₂ tx = true) :
    handleTxs E oIndexes height b i (l.map some) w₂ = .ok w₂ := by
  induction l generalizing i w with
  | nil => rfl
  | cons tx l ih =>
    obtain ⟨w', h', hrest⟩ := bind_eq_ok.mp h
    have hchanges : Leaves (Changes E height w') id
        (handleTxs E oIndexes height b (i + 1) (l.map some) w') := handleTxs_changes Changes.refl
    rw [hrest, leaves_ok] at hchanges
    rw [List.map_cons, handleTxs,
      processNewTransaction_again h' (hchanges.trans hlater) (hrep tx (by simp)), ok_bind]
    exact ih hrest fun tx' htx' => hrep tx' (by simp [htx'])

/-- A request without an answer comes before anything is changed. -/
theorem processNewTransaction_refused {oIndexes : Option (List UInt64)}
    (hr : refused E oIndexes w tx = true)
    (hu : w.unconfirmedTxs.get (getTransactionHash E.toEnv tx) = none) :
    processNewTransaction E oIndexes tx height b w = .error w := by
  have hpu : processUnconfirmed E.toEnv tx w = (([], []), w) := by
    unfold processUnconfirmed
    rw [hu]
  unfold refused at hr
  split at hr
  · cases hr
  · next txPubKey outs money hown =>
    rw [Bool.and_eq_true, decide_eq_true_eq, Option.isNone_iff_eq_none] at hr
    obtain ⟨hmoney, rfl⟩ := hr
    obtain ⟨tei, htei, hlookup⟩ := Option.bind_eq_some_iff.mp hown
    obtain ⟨r, hr, hrest⟩ := Option.map_eq_some_iff.mp hlookup
    cases hrest
    unfold processNewTransaction receiveMoney
    simp only [hpu, htei, hr, if_pos hmoney]
    rfl

theorem cleanTxs_error {oIndexes : ℕ → Option (List UInt64)} {done : List Transaction} {i : ℕ}
    {l : List (Option Transaction)} (hclean : cleanTxs E oIndexes height b done i l w = true)
    (h : handleTxs E oIndexes height b i l w = .error w₁) :
    ∃ l₁ tx l₂, l = l₁.map some ++ some tx :: l₂ ∧
      handleTxs E oIndexes height b i (l₁.map some) w = .ok w₁ ∧
      ∀ t ∈ done ++ l₁, repeatable E w₁ t = true := by
  induction l generalizing done i w with
  | nil => cases h
  | cons tx l ih =>
    cases tx with
    | none => cases hclean
    | some tx =>
      unfold cleanTxs at hclean
      cases hp : processNewTransaction E (oIndexes i) tx height b w with
      | ok w' =>
        simp only [hp] at hclean
        rw [handleTxs, hp, ok_bind] at h
        obtain ⟨l₁, tx', l₂, rfl, hok, hrep⟩ := ih hclean h
        refine ⟨tx :: l₁, tx', l₂, rfl, ?_, ?_⟩
        · rw [List.map_cons, handleTxs, hp, ok_bind]
          exact hok
        · simpa using hrep
      | error w' =>
        simp only [hp, Bool.and_eq_true, List.all_eq_true, Option.isNone_iff_eq_none] at hclean
        obtain ⟨⟨hrefused, hu⟩, hrep⟩ := hclean
        rw [handleTxs, hp, error_bind] at h
        rw [processNewTransaction_refused hrefused hu] at hp
        cases hp
        cases h
        exact ⟨[], tx, l, rfl, rfl, by simpa using hrep⟩

/-- A block that was interrupted is handled as if for the first time. -/
theorem scanBlock_again {sb sb' : ServedBlock} (hd : Degraded sb' sb) (hs : w.isScanned b = true)
    (hclean : cleanTxs E sb'.oIndexes height b [] 0 (blockTxs sb' b) w = true)
    (h : scanBlock E sb' b height w = .error w₁) :
    scanBlock E sb b height w₁ = scanBlock E sb b height w ∧ Changes E height w w₁ := by
  have hchanges : Leaves (Changes E height w) id (scanBlock E sb' b height w) :=
    scanBlock_changes Changes.refl
  rw [h, leaves_error] at hchanges
  have hs₁ : w₁.isScanned b = true := by
    rw [isScanned, hchanges.sameSetup.account]
    exact hs
  have htxs : blockTxs sb' b = blockTxs sb b := by rw [blockTxs, blockTxs, hd.2.1]
  rw [scanBlock_eq hs] at h
  obtain ⟨l₁, tx, l₂, hl, hok, hrep⟩ := cleanTxs_error hclean h
  have hok' := handleTxs_degraded hd.2.2 hok
  refine ⟨?_, hchanges⟩
  rw [scanBlock_eq hs, scanBlock_eq hs₁, ← htxs, hl, handleTxs_append, handleTxs_append, hok',
    handleTxs_again hok' Changes.refl (by simpa using hrep)]

theorem scanBlock_degraded {sb sb' : ServedBlock} (hd : Degraded sb' sb)
    (h : scanBlock E sb' b height w = .ok w') : scanBlock E sb b height w = .ok w' := by
  cases hs : w.isScanned b with
  | true =>
    have htxs : blockTxs sb' b = blockTxs sb b := by rw [blockTxs, blockTxs, hd.2.1]
    rw [scanBlock_eq hs] at h ⊢
    rw [← htxs]
    exact handleTxs_degraded hd.2.2 h
  | false =>
    unfold scanBlock at h ⊢
    rw [hs] at h ⊢
    exact h

theorem addServed_degraded {sb sb' : ServedBlock} (hd : Degraded sb' sb)
    (h : addServed E w sb' = .ok w') : addServed E w sb = .ok w' := by
  unfold addServed at h ⊢
  rw [hd.1] at h
  cases hbl : parseAndValidateBlockFromBlob sb.block with
  | none =>
    simp only [hbl] at h
    cases h
  | some bl =>
    simp only [hbl] at h ⊢
    unfold processNewBlockchainEntry at h ⊢
    simp only [ne_eq, not_true_eq_false, if_false] at h ⊢
    obtain ⟨w₁, h₁, h₂⟩ := bind_eq_ok.mp h
    rw [scanBlock_degraded hd h₁]
    exact h₂

theorem addAll_degraded {l l' : List ServedBlock} (hd : List.Forall₂ Degraded l' l)
    (h : addAll E l' w = .ok w') : addAll E l w = .ok w' := by
  induction hd generalizing w with
  | nil => exact h
  | cons hsb _ ih =>
    rw [addAll_cons] at h ⊢
    obtain ⟨w₁, h₁, h₂⟩ := bind_eq_ok.mp h
    rw [addServed_degraded hsb h₁]
    exact ih h₂

/-- Blocks are added after the interruption as they would have been before. -/
theorem addAll_again {l l' : List ServedBlock} (hd : List.Forall₂ Degraded l' l)
    (hclean : cleanAdd E l' w = true) (h : addAll E l' w = .error w₁) :
    ∃ pre sb rest wm, l = pre ++ sb :: rest ∧ addAll E pre w = .ok wm ∧
      w₁.blockchain = wm.blockchain ∧
      ∀ rest', addAll E (sb :: rest') w₁ = addAll E (sb :: rest') wm := by
  induction hd generalizing w with
  | nil => cases h
  | @cons sb' sb l' l hsb hl ih =>
    rw [addAll_cons] at h
    unfold cleanAdd at hclean
    cases hadd : addServed E w sb' with
    | ok w' =>
      simp only [hadd] at hclean
      rw [hadd, ok_bind] at h
      obtain ⟨pre, sb₁, rest, wm, rfl, hpre, hchain, hrest⟩ := ih hclean h
      refine ⟨sb :: pre, sb₁, rest, wm, rfl, ?_, hchain, hrest⟩
      rw [addAll_cons, addServed_degraded hsb hadd]
      exact hpre
    | error w' =>
      rw [hadd, error_bind] at h
      cases h
      simp only [hadd] at hclean
      cases hbl : parseAndValidateBlockFromBlob sb'.block with
      | none => simp [hbl] at hclean
      | some bl =>
        simp only [hbl] at hclean
        unfold addServed at hadd
        simp only [hbl] at hadd
        unfold processNewBlockchainEntry at hadd
        simp only [ne_eq, not_true_eq_false, if_false] at hadd
        have hscan : scanBlock E sb' bl w.blockchain.length w = .error w₁ := by
          cases hs : scanBlock E sb' bl w.blockchain.length w with
          | ok w' =>
            rw [hs] at hadd
            cases hadd
          | error w' =>
            rw [hs] at hadd
            exact hadd
        have hs : w.isScanned bl = true := by
          by_contra hne
          unfold scanBlock at hscan
          rw [Bool.not_eq_true] at hne
          rw [hne] at hscan
          cases hscan
        obtain ⟨hagain, hchanges⟩ := scanBlock_again hsb hs hclean hscan
        have hchain := hchanges.sameSetup.blockchain
        refine ⟨[], sb, l, w, rfl, rfl, hchain, fun rest' => ?_⟩
        rw [addAll_cons, addAll_cons]
        unfold addServed
        rw [← hsb.1]
        simp only [hbl]
        unfold processNewBlockchainEntry
        simp only [ne_eq, not_true_eq_false, if_false, hchain, hagain]

end Again

/-- Calls of `pull_blocks` against the chain `ch` lead from `w` to `w'`, the last of them adds nothing. -/
inductive Completes (E : WalletEnv) (ch : List ServedBlock) : Wallet2 → Wallet2 → Prop
  | done {w w' : Wallet2} : pullBlocks E (serve E.toEnv ch) w = .ok (0, w') → Completes E ch w w'
  | more {w w₁ w' : Wallet2} {added : ℕ} : added ≠ 0 →
      pullBlocks E (serve E.toEnv ch) w = .ok (added, w₁) → Completes E ch w₁ w' → Completes E ch w w'

/-- The wallet has the first `k` blocks of the chain. -/
structure OnChain (E : Env) (ch : List ServedBlock) (k : ℕ) (w : Wallet2) : Prop where
  pos : 0 < k
  le : k ≤ ch.length
  ids : w.blockchain.map some = (ch.take k).map (ServedBlock.id? E)

section Completes

variable {E : WalletEnv} {ch : List ServedBlock} {w w' w₁ : Wallet2} {k : ℕ}

theorem Completes.refresh (h : Completes E ch w w') :
    ∃ n, ∀ tryCount, refresh E tryCount (List.replicate n (serve E.toEnv ch)) w = some (.ok w') := by
  induction h with
  | done hpull =>
    refine ⟨1, fun tryCount => ?_⟩
    rw [List.replicate_one, Wallet2.refresh, hpull]
    rfl
  | more hne hpull _ ih =>
    obtain ⟨n, hn⟩ := ih
    refine ⟨n + 1, fun tryCount => ?_⟩
    rw [List.replicate_succ, Wallet2.refresh, hpull]
    simp only [hne, if_false]
    exact hn tryCount

theorem Completes.refresh_eq (h : Completes E ch w w') {n tryCount : ℕ} {r : Except Wallet2 Wallet2}
    (hr : Wallet2.refresh E tryCount (List.replicate n (serve E.toEnv ch)) w = some r) : r = .ok w' := by
  induction h generalizing n with
  | done hpull =>
    cases n with
    | zero => cases hr
    | succ n =>
      rw [List.replicate_succ, Wallet2.refresh, hpull] at hr
      cases hr
      rfl
  | more hne hpull _ ih =>
    cases n with
    | zero => cases hr
    | succ n =>
      rw [List.replicate_succ, Wallet2.refresh, hpull] at hr
      simp only [hne, if_false] at hr
      exact ih hr

theorem OnChain.length (h : OnChain E.toEnv ch k w) : w.blockchain.length = k := by
  have := congrArg List.length h.ids
  rw [List.length_map, List.length_map, List.length_take, Nat.min_eq_left h.le] at this
  exact this

theorem OnChain.agree (hid : ∀ sb ∈ ch, (sb.id? E.toEnv).isSome)
    (hnodup : (ch.map (ServedBlock.id? E.toEnv)).Nodup) (h : OnChain E.toEnv ch k w) :
    AgreeUpTo E.toEnv ch w.blockchain k := by
  have hget : ∀ i < k, w.blockchain[i]?.map some = (ch[i]?).map (ServedBlock.id? E.toEnv) := by
    intro i hi
    have := congrArg (fun l => l[i]?) h.ids
    simpa only [List.getElem?_map, List.getElem?_take_of_lt hi] using this
  have hlen := h.length
  have hle := h.le
  refine ⟨h.pos, hlen.ge, fun i hi => ?_, fun i j id hi hj => ?_⟩
  · have hic : i < ch.length := by omega
    obtain ⟨id, hsb⟩ := Option.isSome_iff_exists.mp (hid ch[i] (List.getElem_mem hic))
    have := hget i hi
    rw [List.getElem?_eq_getElem hic, Option.map_some, hsb] at this
    obtain ⟨id', hid', hsome⟩ := Option.map_eq_some_iff.mp this
    refine ⟨id', hid', ?_⟩
    rw [List.getElem?_eq_getElem hic, Option.bind_some, hsb, hsome]
  · have hik : i < k := hlen ▸ (List.getElem?_eq_some_iff.mp hi).1
    refine ⟨?_, hik⟩
    have := hget i hik
    rw [hi, Option.map_some] at this
    obtain ⟨sb, hsb, hidj⟩ := Option.bind_eq_some_iff.mp hj
    refine (List.getElem?_inj ?_ hnodup).mp ?_
    · rw [List.length_map]
      omega
    · rw [List.getElem?_map, List.getElem?_map, ← this, hsb, Option.map_some, hidj]

theorem OnChain.addAll (h : OnChain E.toEnv ch k w) {n : ℕ}
    (hadd : Wallet2.addAll E ((ch.drop k).take n) w = .ok w') :
    OnChain E.toEnv ch (min (k + n) ch.length) w' := by
  have hle := h.le
  have hpos := h.pos
  refine ⟨by omega, Nat.min_le_right _ _, ?_⟩
  have hmin : ch.take (min (k + n) ch.length) = ch.take (k + n) := by
    rw [← List.take_take, List.take_length]
  rw [addAll_blockchain hadd, h.ids, hmin, List.take_add, List.map_append]

theorem drop_min (ch : List ServedBlock) (k n : ℕ) :
    (ch.drop k).drop n = ch.drop (min (k + n) ch.length) := by
  rw [List.drop_drop]
  rcases le_total (k + n) ch.length with hle | hle
  · rw [Nat.min_eq_left hle]
  · rw [Nat.min_eq_right hle, List.drop_length, List.drop_eq_nil_of_le hle]

variable (hid : ∀ sb ∈ ch, (sb.id? E.toEnv).isSome)
  (hnodup : (ch.map (ServedBlock.id? E.toEnv)).Nodup)
include hid hnodup

theorem OnChain.pull_eq (h : OnChain E.toEnv ch k w) :
    pullBlocks E (serve E.toEnv ch) w =
      Wallet2.addAll E ((ch.drop k).take (COMMAND_RPC_GET_BLOCKS_FAST_MAX_COUNT - 1)) w >>= fun w' =>
        .ok (((ch.drop k).take (COMMAND_RPC_GET_BLOCKS_FAST_MAX_COUNT - 1)).length, w') := by
  have hagree := h.agree hid hnodup
  rw [pullBlocks_on_chain hid (by rw [h.length]; exact hagree), h.length]

theorem OnChain.completes (h : OnChain E.toEnv ch k w)
    (hadd : Wallet2.addAll E (ch.drop k) w = .ok w') : Completes E ch w w' := by
  have hle := h.le
  induction hm : ch.length - k using Nat.strong_induction_on generalizing k w with
  | _ m ih =>
    have hcall := h.pull_eq hid hnodup
    by_cases hend : k = ch.length
    · rw [hend, List.drop_length] at hadd hcall
      cases hadd
      exact .done hcall
    · rw [← List.take_append_drop (COMMAND_RPC_GET_BLOCKS_FAST_MAX_COUNT - 1) (ch.drop k),
        addAll_append] at hadd
      obtain ⟨w₁, hw₁, hrest⟩ := bind_eq_ok.mp hadd
      rw [hw₁, ok_bind] at hcall
      have hcount : COMMAND_RPC_GET_BLOCKS_FAST_MAX_COUNT - 1 ≠ 0 := by decide
      refine .more ?_ hcall (ih _ ?_ (h.addAll hw₁) ?_ (Nat.min_le_right _ _) rfl)
      · rw [List.length_take, List.length_drop]
        omega
      · omega
      · rw [← drop_min]
        exact hrest

theorem OnChain.addAll_of_completes (h : OnChain E.toEnv ch k w) (hc : Completes E ch w w') :
    Wallet2.addAll E (ch.drop k) w = .ok w' := by
  induction hc generalizing k with
  | @done w w' hpull =>
    rw [h.pull_eq hid hnodup] at hpull
    obtain ⟨w₁, hw₁, hok⟩ := bind_eq_ok.mp hpull
    rw [Except.ok.injEq, Prod.mk.injEq] at hok
    obtain ⟨hlen, rfl⟩ := hok
    have hle := h.le
    have hnil : ch.drop k = [] := by
      have hcount : COMMAND_RPC_GET_BLOCKS_FAST_MAX_COUNT - 1 ≠ 0 := by decide
      rw [List.length_take] at hlen
      rw [← List.length_eq_zero_iff]
      omega
    rw [hnil, List.take_nil] at hw₁
    rw [hnil]
    exact hw₁
  | @more w w₁ w' added _ hpull _ ih =>
    rw [h.pull_eq hid hnodup] at hpull
    obtain ⟨w₂, hw₂, hok⟩ := bind_eq_ok.mp hpull
    rw [Except.ok.injEq, Prod.mk.injEq] at hok
    obtain ⟨-, rfl⟩ := hok
    have := ih (h.addAll hw₂)
    rw [← drop_min] at this
    rw [← List.take_append_drop (COMMAND_RPC_GET_BLOCKS_FAST_MAX_COUNT - 1) (ch.drop k), addAll_append,
      hw₂]
    exact this

end Completes

section Detach

variable {E : WalletEnv} {w w₁ : Wallet2}

theorem detachKeyImages_error {l : List TransferDetails} (h : detachKeyImages l w = .error w₁) :
    w₁ = { w with keyImages := w₁.keyImages } ∧
      ∀ ki, w.keyImages.get ki = none → w₁.keyImages.get ki = none := by
  induction l generalizing w with
  | nil => cases h
  | cons td l ih =>
    unfold detachKeyImages at h
    split at h
    · cases h
      exact ⟨rfl, fun _ hki => hki⟩
    · obtain ⟨hw₁, hnone⟩ := ih h
      refine ⟨hw₁, fun ki hki => hnone ki ?_⟩
      simp only [Map.get_erase]
      split_ifs
      · rfl
      · exact hki

/-- The image that was missing, or was erased before another was missing, is missing the next time. -/
theorem detachBlockchain_error {d : ℕ} (h : detachBlockchain d w = .error w₁) :
    w₁.blockchain = w.blockchain ∧ detachBlockchain d w₁ = .error w₁ := by
  have hkeys : detachKeyImages (w.transfers.drop (w.detachStart d)) w = .error w₁ := by
    unfold detachBlockchain at h
    cases hk : detachKeyImages (w.transfers.drop (w.detachStart d)) w with
    | ok w' =>
      rw [hk] at h
      cases h
    | error w' =>
      rw [hk] at h
      exact h
  obtain ⟨hw₁, -⟩ := detachKeyImages_error hkeys
  have hstart : w₁.transfers.drop (w₁.detachStart d) = w.transfers.drop (w.detachStart d) := by
    rw [hw₁]
    rfl
  refine ⟨by rw [hw₁], ?_⟩
  unfold detachBlockchain
  rw [hstart]
  cases hl : w.transfers.drop (w.detachStart d) with
  | nil =>
    rw [hl] at hkeys
    cases hkeys
  | cons td l =>
    have hfirst : w₁.keyImages.get td.keyImage = none := by
      rw [hl, detachKeyImages] at hkeys
      cases hget : w.keyImages.get td.keyImage with
      | none =>
        simp only [hget] at hkeys
        cases hkeys
        exact hget
      | some p =>
        simp only [hget] at hkeys
        exact (detachKeyImages_error hkeys).2 _ (Map.get_erase_self _ _)
    rw [detachKeyImages]
    simp only [hfirst]
    rfl

end Detach

section Retry

variable {E : WalletEnv} {ch : List ServedBlock} {w w' w₁ : Wallet2} {d : ℕ}

theorem map_id?_degraded {ch' : List ServedBlock} (h : List.Forall₂ Degraded ch' ch) :
    ch'.map (ServedBlock.id? E.toEnv) = ch.map (ServedBlock.id? E.toEnv) := by
  induction h with
  | nil => rfl
  | cons hsb _ ih => rw [List.map_cons, List.map_cons, ih, ServedBlock.id?, ServedBlock.id?, hsb.1]

theorem isSome_degraded {ch' : List ServedBlock} (hd : List.Forall₂ Degraded ch' ch)
    (hid : ∀ sb ∈ ch, (sb.id? E.toEnv).isSome) : ∀ sb ∈ ch', (sb.id? E.toEnv).isSome := by
  intro sb hsb
  have hmem : sb.id? E.toEnv ∈ ch.map (ServedBlock.id? E.toEnv) :=
    map_id?_degraded hd ▸ List.mem_map_of_mem hsb
  obtain ⟨sb', hsb', heq⟩ := List.mem_map.mp hmem
  rw [← heq]
  exact hid sb' hsb'

theorem AgreeUpTo.degraded {ch' : List ServedBlock} {bs : List Hash}
    (hd : List.Forall₂ Degraded ch' ch) (h : AgreeUpTo E.toEnv ch bs d) : AgreeUpTo E.toEnv ch' bs d := by
  have hget : ∀ i : ℕ, (ch'[i]?).bind (ServedBlock.id? E.toEnv) =
      (ch[i]?).bind (ServedBlock.id? E.toEnv) := by
    intro i
    have := congrArg (fun l : List (Option Hash) => (l[i]?).bind id)
      (map_id?_degraded (E := E) hd)
    simpa [List.getElem?_map, Option.bind_map] using this
  refine ⟨h.pos, h.le, fun i hi => ?_, fun i j id hi hj => ?_⟩
  · rw [hget]
    exact h.common i hi
  · rw [hget] at hj
    exact h.apart i j id hi hj

theorem AgreeUpTo.onChain (h : AgreeUpTo E.toEnv ch w.blockchain d)
    (hw : w₁.blockchain = w.blockchain.take d) : OnChain E.toEnv ch d w₁ := by
  refine ⟨h.pos, h.le_chain, List.ext_getElem? fun i => ?_⟩
  rw [hw, List.getElem?_map, List.getElem?_map]
  by_cases hi : i < d
  · rw [List.getElem?_take_of_lt hi, List.getElem?_take_of_lt hi]
    obtain ⟨id, hbs, hid⟩ := h.common i hi
    obtain ⟨sb, hsb, hsbid⟩ := Option.bind_eq_some_iff.mp hid
    rw [hbs, hsb, Option.map_some, Option.map_some, hsbid]
  · rw [List.getElem?_eq_none (by rw [List.length_take]; omega),
      List.getElem?_eq_none (by rw [List.length_take]; omega)]
    rfl

theorem forall₂_drop_take {α : Type} {R : α → α → Prop} {l l' : List α} (h : List.Forall₂ R l l')
    (m n : ℕ) : List.Forall₂ R ((l.drop m).take n) ((l'.drop m).take n) :=
  List.forall₂_take n (List.forall₂_drop m h)

variable (hid : ∀ sb ∈ ch, (sb.id? E.toEnv).isSome)
include hid

theorem refresh_stuck {attempts : List (Option (List ServedBlock))} {start tryCount : ℕ}
    (hattempts : ∀ a ∈ attempts, ∀ ch', a = some ch' → List.Forall₂ Degraded ch' ch)
    (hagree : AgreeUpTo E.toEnv ch w.blockchain d) (hlt : start < d)
    (hserve : ∀ (ch : List ServedBlock), AgreeUpTo E.toEnv ch w.blockchain d →
      serve E.toEnv ch (walletShortChainHistory w.blockchain) =
        some (start, (ch.drop start).take COMMAND_RPC_GET_BLOCKS_FAST_MAX_COUNT))
    (hne : (ch.drop d).take (start + COMMAND_RPC_GET_BLOCKS_FAST_MAX_COUNT - d) ≠ [])
    (hroom : makeRoom d w = .error w) :
    refresh E tryCount (attempts.map (answerOf E.toEnv)) w ≠ some (.ok w') := by
  induction attempts generalizing tryCount with
  | nil => exact fun h => nomatch h
  | cons a l ih =>
    have hpull : pullBlocks E (answerOf E.toEnv a) w = .error w := by
      cases a with
      | none => rfl
      | some ch' =>
        have hd := hattempts _ (by simp) ch' rfl
        have hagree' := AgreeUpTo.degraded hd hagree
        have hcall := pullBlocks_of_agree hlt (isSome_degraded hd hid) hagree' (hserve ch' hagree')
        have hne' : (ch'.drop d).take (start + COMMAND_RPC_GET_BLOCKS_FAST_MAX_COUNT - d) ≠ [] := by
          have hlen := (forall₂_drop_take hd d
            (start + COMMAND_RPC_GET_BLOCKS_FAST_MAX_COUNT - d)).length_eq
          intro hnil
          rw [hnil, List.length_nil] at hlen
          exact hne (List.length_eq_zero_iff.mp hlen.symm)
        simp only [hne', if_false, hroom, error_bind] at hcall
        exact hcall
    rw [List.map_cons, refresh, hpull]
    simp only
    split_ifs
    · exact ih fun a' ha' => hattempts a' (by simp [ha'])
    · simp

/-- A call that makes room and adds blocks is the first of the calls that add the whole chain, unless
the split block is all it adds of a longer chain. -/
theorem completes_of_makeRoom (hnodup : (ch.map (ServedBlock.id? E.toEnv)).Nodup) {wr : Wallet2} {n : ℕ}
    (hon : OnChain E.toEnv ch d wr) (hne : (ch.drop d).take n ≠ [])
    (hcall : pullBlocks E (serve E.toEnv ch) w =
      addAll E ((ch.drop d).take n) wr >>= fun w' =>
        .ok (if d = w.blockchain.length then ((ch.drop d).take n).length
          else ((ch.drop d).take n).length - 1, w'))
    (hend : d ≠ w.blockchain.length → ((ch.drop d).take n).length = 1 → ch.length = d + 1)
    (hadd : addAll E (ch.drop d) wr = .ok w') : Completes E ch w w' := by
  have hpos : ((ch.drop d).take n).length ≠ 0 := by
    rw [Ne, List.length_eq_zero_iff]
    exact hne
  rw [← List.take_append_drop n (ch.drop d), addAll_append] at hadd
  obtain ⟨w₂, hw₂, hrest⟩ := bind_eq_ok.mp hadd
  rw [hw₂, ok_bind] at hcall
  have hon₂ := hon.addAll hw₂
  rw [drop_min] at hrest
  by_cases hzero : (if d = w.blockchain.length then ((ch.drop d).take n).length
      else ((ch.drop d).take n).length - 1) = 0
  · -- only the split block was added, and it is the last of the chain
    have hlast : ch.length = d + 1 := by
      split_ifs at hzero with hd
      · exact absurd hzero hpos
      · exact hend hd (by omega)
    have hdrop : ch.drop (min (d + n) ch.length) = [] := by
      rw [List.drop_eq_nil_iff]
      have : n ≠ 0 := by
        rintro rfl
        exact hne (List.take_zero ..)
      omega
    rw [hdrop] at hrest
    cases hrest
    rw [hzero] at hcall
    exact .done hcall
  · exact .more hzero hcall (hon₂.completes hid hnodup hrest)

omit hid in
/-- What the condition says of the blocks an answer adds. -/
theorem cleanPull_add {wr : Wallet2} {start : ℕ} (hlt : start < d)
    (hagree : AgreeUpTo E.toEnv ch w.blockchain d)
    (hserve : serve E.toEnv ch (walletShortChainHistory w.blockchain) =
      some (start, (ch.drop start).take COMMAND_RPC_GET_BLOCKS_FAST_MAX_COUNT))
    (hne : (ch.drop d).take (start + COMMAND_RPC_GET_BLOCKS_FAST_MAX_COUNT - d) ≠ [])
    (hroom : makeRoom d w = .ok wr) (hclean : cleanPull E ch w = true) :
    cleanAdd E ((ch.drop d).take (start + COMMAND_RPC_GET_BLOCKS_FAST_MAX_COUNT - d)) wr = true ∧
      (d ≠ w.blockchain.length → ∀ w₁,
        addAll E ((ch.drop d).take (start + COMMAND_RPC_GET_BLOCKS_FAST_MAX_COUNT - d)) wr = .error w₁ →
        ((ch.drop d).take (start + COMMAND_RPC_GET_BLOCKS_FAST_MAX_COUNT - d)).length = 1 →
        ch.length = d + 1) := by
  have hdrop : ((ch.drop start).take COMMAND_RPC_GET_BLOCKS_FAST_MAX_COUNT).drop (d - start) =
      (ch.drop d).take (start + COMMAND_RPC_GET_BLOCKS_FAST_MAX_COUNT - d) := by
    rw [List.drop_take, List.drop_drop]
    congr 1
    · omega
    · congr 1
      omega
  unfold cleanPull at hclean
  rw [hserve] at hclean
  simp only at hclean
  unfold makeRoom at hroom
  split_ifs at hroom with hd
  · cases hroom
    rw [splitHeight_on_chain (by rw [← hd]; exact hagree) (by omega)] at hclean
    simp only [← hd, hdrop] at hclean
    exact ⟨hclean, fun hne => absurd hd hne⟩
  · rw [splitHeight_of_agree hagree hlt hne hd] at hclean
    simp only [hroom, hdrop, Bool.and_eq_true, Bool.or_eq_true, decide_eq_true_eq] at hclean
    refine ⟨hclean.1, fun _ w₁ herr hone => ?_⟩
    rcases hclean.2 with hend | hok
    · refine hend ?_
      rw [List.length_take, List.length_drop] at hone ⊢
      omega
    · rw [herr] at hok
      cases hok

/-- A refresh that retries and succeeds ends like the calls that do not fail. -/
theorem completes_of_refresh (hnodup : (ch.map (ServedBlock.id? E.toEnv)).Nodup)
    {attempts : List (Option (List ServedBlock))} {tryCount : ℕ}
    (hattempts : ∀ a ∈ attempts, ∀ ch', a = some ch' → List.Forall₂ Degraded ch' ch)
    (hagree : AgreeUpTo E.toEnv ch w.blockchain d) (hclean : cleanRun E attempts w)
    (h : refresh E tryCount (attempts.map (answerOf E.toEnv)) w = some (.ok w')) :
    Completes E ch w w' := by
  induction attempts generalizing w d tryCount with
  | nil => cases h
  | cons a l ih =>
    have hrest : ∀ a' ∈ l, ∀ ch', a' = some ch' → List.Forall₂ Degraded ch' ch := fun a' ha' =>
      hattempts a' (by simp [ha'])
    obtain ⟨hcleanPull, hcleanRest⟩ := hclean
    rw [List.map_cons, refresh] at h
    -- a call that throws is tried again from the wallet it leaves
    have hthrown : ∀ {w₁ d₁}, pullBlocks E (answerOf E.toEnv a) w = .error w₁ →
        AgreeUpTo E.toEnv ch w₁.blockchain d₁ → Completes E ch w₁ w' := by
      intro w₁ d₁ hpull hagree₁
      rw [hpull] at h hcleanRest
      simp only at h
      split_ifs at h
      · exact ih hrest hagree₁ hcleanRest h
      · simp at h
    cases a with
    | none => exact hthrown rfl hagree
    | some ch' =>
      have hd := hattempts _ (by simp) ch' rfl
      have hagree' := AgreeUpTo.degraded hd hagree
      obtain ⟨start, hlt, htop, hstart⟩ := exists_start hagree.pos hagree.le
      have hserve := hstart E.toEnv
      have hcall := pullBlocks_of_agree hlt hid hagree (hserve ch hagree)
      have hcall' := pullBlocks_of_agree hlt (isSome_degraded hd hid) hagree' (hserve ch' hagree')
      have hdl := forall₂_drop_take hd d (start + COMMAND_RPC_GET_BLOCKS_FAST_MAX_COUNT - d)
      have hlen := hdl.length_eq
      generalize hl : (ch.drop d).take (start + COMMAND_RPC_GET_BLOCKS_FAST_MAX_COUNT - d) = lc
        at hcall hdl hlen
      generalize hl' : (ch'.drop d).take (start + COMMAND_RPC_GET_BLOCKS_FAST_MAX_COUNT - d) = lc'
        at hcall' hdl hlen
      simp only at hcall hcall'
      by_cases hnil : lc = []
      · -- nothing new, and nothing was asked for
        have hnil' : lc' = [] := by
          rw [← List.length_eq_zero_iff, hlen, hnil, List.length_nil]
        rw [if_pos hnil] at hcall
        rw [if_pos hnil'] at hcall'
        rw [answerOf, hcall'] at h
        cases h
        exact .done hcall
      have hnil' : lc' ≠ [] := by
        rw [Ne, ← List.length_eq_zero_iff, hlen, List.length_eq_zero_iff]
        exact hnil
      rw [if_neg hnil] at hcall
      rw [if_neg hnil'] at hcall'
      cases hroom : makeRoom d w with
      | error w₁ =>
        rw [hroom, error_bind] at hcall'
        unfold makeRoom at hroom
        split_ifs at hroom with hdlen
        obtain ⟨hchain, hagain⟩ := detachBlockchain_error hroom
        have hroom₁ : makeRoom d w₁ = .error w₁ := by
          unfold makeRoom
          rw [hchain, if_neg hdlen, hagain]
        rw [answerOf, hcall'] at h
        simp only at h
        split_ifs at h
        · exact absurd h (refresh_stuck hid hrest (w := w₁) (by rw [hchain]; exact hagree) hlt
            (by rw [hchain]; exact fun ch hc => hserve ch hc) (by rw [hl]; exact hnil) hroom₁)
        · simp at h
      | ok wr =>
        have hon : OnChain E.toEnv ch d wr := AgreeUpTo.onChain hagree (makeRoom_blockchain hroom)
        rw [hroom, ok_bind] at hcall hcall'
        cases hadd' : addAll E lc' wr with
        | ok wm =>
          have hadd := addAll_degraded hdl hadd'
          rw [hadd', ok_bind, hlen] at hcall'
          rw [hadd, ok_bind] at hcall
          rw [answerOf, hcall'] at h hcleanRest
          generalize (if d = w.blockchain.length then lc.length else lc.length - 1) = added
            at hcall h hcleanRest
          simp only at h
          split_ifs at h with hzero
          · cases h
            rw [hzero] at hcall
            exact .done hcall
          · rw [← hl] at hadd
            exact .more hzero hcall (ih hrest ((hon.addAll hadd).agree hid hnodup) hcleanRest h)
        | error w₁ =>
          -- the interrupted block, and what it leaves for the next call
          rw [hadd', error_bind] at hcall'
          have hclean := cleanPull_add hlt hagree' (hserve ch' hagree') (by rw [hl']; exact hnil') hroom
            (hcleanPull ch' rfl)
          rw [hl'] at hclean
          obtain ⟨pre, sb, rest, wm, hsplit, hpre, hchain, hagain⟩ :=
            addAll_again hdl hclean.1 hadd'
          have hpretake : pre = (ch.drop d).take pre.length := by
            have := congrArg (List.take pre.length) (hl.trans hsplit)
            rw [List.take_left, List.take_take, Nat.min_eq_left] at this
            · exact this.symm
            · have hle := congrArg List.length (hl.trans hsplit)
              rw [List.length_take, List.length_append, List.length_cons] at hle
              omega
          rw [hpretake] at hpre
          have honm := hon.addAll hpre
          have hon₁ : OnChain E.toEnv ch (min (d + pre.length) ch.length) w₁ :=
            ⟨honm.pos, honm.le, by rw [hchain]; exact honm.ids⟩
          have hcomplete := hthrown hcall' (hon₁.agree hid hnodup)
          have hrest₁ := hon₁.addAll_of_completes hid hnodup hcomplete
          obtain ⟨rest', hdrop⟩ : ∃ rest', ch.drop (min (d + pre.length) ch.length) = sb :: rest' := by
            rw [← drop_min]
            refine ⟨rest ++ ((ch.drop d).drop lc.length), ?_⟩
            have hwhole : ch.drop d = pre ++ sb :: (rest ++ (ch.drop d).drop lc.length) := by
              conv_lhs => rw [← List.take_append_drop lc.length (ch.drop d)]
              rw [← hl, List.length_take, ← List.take_take, List.take_length, hl, hsplit]
              simp
            conv_lhs => rw [hwhole]
            rw [List.drop_left]
          rw [hdrop, hagain, ← hdrop, ← drop_min] at hrest₁
          have hadd : addAll E (ch.drop d) wr = .ok w' := by
            rw [← List.take_append_drop pre.length (ch.drop d), addAll_append, hpre]
            exact hrest₁
          rw [← hl] at hcall hnil
          refine completes_of_makeRoom hid hnodup hon hnil hcall (fun hne hone => ?_) hadd
          rw [hl, ← hlen] at hone
          rw [← hd.length_eq]
          exact hclean.2 hne w₁ hadd' hone

end Retry

/-- A refresh that retried and succeeded leaves the wallet as a refresh without failures does, and
there is one without failures. -/
theorem refresh_retried (E : WalletEnv) (ch : List ServedBlock)
    (hid : ∀ sb ∈ ch, (sb.id? E.toEnv).isSome) (hnodup : (ch.map (ServedBlock.id? E.toEnv)).Nodup)
    (w w' : Wallet2) (d : ℕ) (hagree : AgreeUpTo E.toEnv ch w.blockchain d)
    (attempts : List (Option (List ServedBlock)))
    (hattempts : ∀ a ∈ attempts, ∀ ch', a = some ch' → List.Forall₂ Degraded ch' ch)
    (hclean : cleanRun E attempts w)
    (hrun : refresh E 0 (attempts.map (answerOf E.toEnv)) w = some (.ok w')) :
    (∃ n, refresh E 0 (List.replicate n (serve E.toEnv ch)) w = some (.ok w')) ∧
    ∀ n w₀, refresh E 0 (List.replicate n (serve E.toEnv ch)) w = some (.ok w₀) →
      w₀.blockchain = w'.blockchain ∧ w₀.transfers = w'.transfers ∧ w₀.keyImages = w'.keyImages ∧
      w₀.payments = w'.payments ∧ w₀.transferHistory = w'.transferHistory ∧ w₀.balance = w'.balance := by
  have h := completes_of_refresh hid hnodup hattempts hagree hclean hrun
  refine ⟨?_, fun n w₀ hrun₀ => ?_⟩
  · obtain ⟨n, hn⟩ := h.refresh
    exact ⟨n, hn 0⟩
  · cases h.refresh_eq hrun₀
    exact ⟨rfl, rfl, rfl, rfl, rfl, rfl⟩

/-- The daemon answers nothing about the global indexes of the `n`-th transaction of the block. -/
def silentAt (n : ℕ) (sb : ServedBlock) : ServedBlock :=
  { sb with oIndexes := fun i => if i = n then none else sb.oIndexes i }

theorem silentAt_degraded (n : ℕ) (sb : ServedBlock) : Degraded (silentAt n sb) sb := by
  refine ⟨rfl, rfl, fun i => ?_⟩
  by_cases hi : i = n
  · exact Or.inl (if_pos hi)
  · exact Or.inr (if_neg hi)

theorem degraded_rfl (sb : ServedBlock) : Degraded sb sb := ⟨rfl, rfl, fun _ => Or.inr rfl⟩

def samplePay : Transaction := sampleTx 10 [] [sampleOut 3 10]

/-- The second block after genesis pays the wallet in its transaction. -/
def samplePayBlock : ServedBlock := sampleServed 2 0 [] [samplePay]

/-- It spends the wallet's output before it pays the wallet. -/
def sampleSpendPayBlock : ServedBlock := sampleServed 2 0 [] [sampleSpend, samplePay]

/-- The refresh of a sample wallet whose first call gets no answer for transaction `n` of block `sb`. -/
def sampleRefresh (n : ℕ) (sb : ServedBlock) : Option Wallet2 :=
  (refresh sampleWalletEnv 0 ([some (samplePaid ++ [silentAt n sb]), some (samplePaid ++ [sb]),
    some (samplePaid ++ [sb])].map (answerOf sampleWalletEnv.toEnv)) (sampleWallet false)).bind
      Except.toOption

theorem sampleRefresh_eq_some {n : ℕ} {sb : ServedBlock} {w : Wallet2} (h : sampleRefresh n sb = some w) :
    refresh sampleWalletEnv 0 ([some (samplePaid ++ [silentAt n sb]), some (samplePaid ++ [sb]),
      some (samplePaid ++ [sb])].map (answerOf sampleWalletEnv.toEnv)) (sampleWallet false) =
        some (.ok w) := by
  obtain ⟨r, hr, h⟩ := Option.bind_eq_some_iff.mp h
  rw [hr, toOption_eq_some.mp h]

/-- The blocks of these calls are those of the chain. -/
theorem sampleAttempts_degraded {n : ℕ} {sb : ServedBlock} : ∀ a ∈
    [some (samplePaid ++ [silentAt n sb]), some (samplePaid ++ [sb]), some (samplePaid ++ [sb])],
    ∀ ch', a = some ch' → List.Forall₂ Degraded ch' (samplePaid ++ [sb]) := by
  have hsame : ∀ l : List ServedBlock, List.Forall₂ Degraded l l := fun l =>
    List.forall₂_same.mpr fun sb _ => degraded_rfl sb
  intro a ha ch' hc'
  simp only [List.mem_cons, List.not_mem_nil, or_false, hc', Option.some.injEq] at ha
  rcases ha with rfl | rfl | rfl
  · exact List.rel_append (hsame _) (.cons (silentAt_degraded n sb) .nil)
  · exact hsame _
  · exact hsame _

theorem refresh_retried_payBlock : ∃ w', sampleRefresh 1 samplePayBlock = some w' ∧
    w'.transfers.length = 2 ∧
    ∃ n, refresh sampleWalletEnv 0
      (List.replicate n (serve sampleWalletEnv.toEnv (samplePaid ++ [samplePayBlock])))
      (sampleWallet false) = some (.ok w') := by
  have h : (sampleRefresh 1 samplePayBlock).map (fun w => w.transfers.length) = some 2 := by
    decide +kernel
  obtain ⟨w', hw', hlen⟩ := Option.map_eq_some_iff.mp h
  have hnodup : ((samplePaid ++ [samplePayBlock]).map
      (ServedBlock.id? sampleWalletEnv.toEnv)).Nodup := by decide +kernel
  have hid : ∀ sb ∈ samplePaid ++ [samplePayBlock], (sb.id? sampleWalletEnv.toEnv).isSome := by
    decide +kernel
  have hfresh : OnChain sampleWalletEnv.toEnv (samplePaid ++ [samplePayBlock]) 1 (sampleWallet false) :=
    ⟨by decide, by decide, by decide +kernel⟩
  -- the only call that throws is the first
  have hclean : cleanRun sampleWalletEnv [some (samplePaid ++ [silentAt 1 samplePayBlock]),
      some (samplePaid ++ [samplePayBlock]), some (samplePaid ++ [samplePayBlock])]
      (sampleWallet false) := by
    refine ⟨?_, ?_, ?_, trivial⟩
    · rintro ch ⟨rfl⟩
      decide +kernel
    · rintro ch ⟨rfl⟩
      decide +kernel
    · rintro ch ⟨rfl⟩
      decide +kernel
  exact ⟨w', hw', hlen, (refresh_retried sampleWalletEnv _ hid hnodup _ w' 1
    (hfresh.agree hid hnodup) _ sampleAttempts_degraded hclean (sampleRefresh_eq_some hw')).1⟩

/-- When the transaction before the one that failed spends an output of the wallet, the retry enters the
spend in the history again. -/
theorem spend_recorded_again : ∃ w' w₀, sampleRefresh 2 sampleSpendPayBlock = some w' ∧
    refresh sampleWalletEnv 0 (List.replicate 2 (serve sampleWalletEnv.toEnv
      (samplePaid ++ [sampleSpendPayBlock]))) (sampleWallet false) = some (.ok w₀) ∧
    w₀.blockchain = w'.blockchain ∧ w₀.transferHistory ≠ w'.transferHistory := by
  have h : (sampleRefresh 2 sampleSpendPayBlock).bind (fun w' =>
      ((refresh sampleWalletEnv 0 (List.replicate 2 (serve sampleWalletEnv.toEnv
        (samplePaid ++ [sampleSpendPayBlock]))) (sampleWallet false)).bind Except.toOption).map fun w₀ =>
          decide (w₀.blockchain = w'.blockchain ∧ w₀.transferHistory ≠ w'.transferHistory)) =
      some true := by decide +kernel
  obtain ⟨w', hw', h⟩ := Option.bind_eq_some_iff.mp h
  obtain ⟨w₀, hw₀, h⟩ := Option.map_eq_some_iff.mp h
  obtain ⟨r, hr, hok⟩ := Option.bind_eq_some_iff.mp hw₀
  exact ⟨w', w₀, hw', by rw [hr, toOption_eq_some.mp hok], of_decide_eq_true h⟩

end Wallet2

end Boolberry
