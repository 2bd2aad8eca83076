import Boolberry.Lib.Aborting
import Boolberry.Wallet

/-!
# What a transaction changes in the wallet

Whatever `process_new_transaction` does with a transaction, and wherever it throws, the
wallet it leaves is reached by a few kinds of small changes. The rest of a wallet stays,
and every invariant of a scan follows from the changes one by one.
-/

namespace Boolberry
open KeyValue Aborting

namespace Wallet2

/-- One of the changes scanning a transaction at `height` is made of. -/
inductive Change (E : WalletEnv) (height : ℕ) (w : Wallet2) : Wallet2 → Prop
  | unconfirmed (txHash : Hash) :
      Change E height w { w with unconfirmedTxs := w.unconfirmedTxs.erase txHash }
  | transfer (td : TransferDetails) : td.blockHeight = height → w.findKnown td.keyImage = none →
      (∃ txPubKey o key, outputKeyImage E w txPubKey o key = some td.keyImage) →
      Change E height w (w.addTransfer td)
  | spent {p : ℕ} : p < w.transfers.length → Change E height w
      { w with transfers := w.transfers.modify p fun td => { td with spent := true } }
  | payment (p : Blob × PaymentDetails) : p.2.blockHeight = height →
      Change E height w { w with payments := w.payments ++ [p] }
  | history (wti : WalletTransferInfo) :
      Change E height w { w with transferHistory := w.transferHistory ++ [wti] }

/-- Any number of changes. -/
def Changes (E : WalletEnv) (height : ℕ) : Wallet2 → Wallet2 → Prop :=
  Relation.ReflTransGen (Change E height)

section Transaction

variable {E : WalletEnv} {height : ℕ} {w₀ w : Wallet2} {tx : Transaction}

theorem Changes.refl : Changes E height w w := Relation.ReflTransGen.refl

theorem Changes.step {w' : Wallet2} (h : Changes E height w₀ w) (hstep : Change E height w w') :
    Changes E height w₀ w' := Relation.ReflTransGen.tail h hstep

theorem processUnconfirmed_changes (h : Changes E height w₀ w) :
    Changes E height w₀ (processUnconfirmed E.toEnv tx w).2 := by
  unfold processUnconfirmed
  split
  · exact h
  · exact h.step (.unconfirmed _)

theorem setTransferSpentFlag_changes {p : ℕ} (h : Changes E height w₀ w) :
    Leaves (Changes E height w₀) id (setTransferSpentFlag p true w) := by
  unfold setTransferSpentFlag
  split_ifs with hp
  · exact .ok (h.step (.spent hp))
  · exact .error h

theorem receiveOut_changes {txPubKey : PublicKey} {oIndexes : List UInt64} {s : TxScan} {o : ℕ}
    (h : Changes E height w₀ s.wallet) :
    Leaves (Changes E height w₀) TxScan.wallet (receiveOut E tx txPubKey height oIndexes s o) := by
  unfold receiveOut
  split
  · split
    · exact .error h
    · next ki hki =>
      split
      · split_ifs
        · exact .error h
        · exact .ok h
      · next hknown => exact .ok (h.step (.transfer _ rfl hknown ⟨_, _, _, hki⟩))
  · exact .error h

theorem receiveMoney_changes {oIndexes : Option (List UInt64)} {txPubKey : PublicKey}
    {outs : List ℕ} {money : UInt64} (h : Changes E height w₀ w) :
    Leaves (Changes E height w₀) TxScan.wallet
      (receiveMoney E oIndexes tx txPubKey height outs money w) := by
  unfold receiveMoney
  split_ifs with hmoney
  · split
    · exact .error h
    · split_ifs
      · exact .error h
      · exact Leaves.foldlM (fun _ _ hs => receiveOut_changes hs) h
  · exact .ok h

theorem spendInputs_changes {l : List TxinToKey} {i : ℕ} {s : TxScan}
    (h : Changes E height w₀ s.wallet) :
    Leaves (Changes E height w₀) TxScan.wallet (spendInputs i l s) := by
  induction l generalizing i s with
  | nil => exact .ok h
  | cons intk l ih =>
    unfold spendInputs
    split
    · exact ih h
    · next p hp =>
      have hflag := setTransferSpentFlag_changes (p := p) h
      split
      · next hw =>
        rw [hw, leaves_error] at hflag
        exact .error hflag
      · next hw =>
        rw [hw, leaves_ok] at hflag
        exact ih hflag

theorem recordPayment_changes {s : TxScan} (h : Changes E height w₀ s.wallet) :
    Changes E height w₀ (recordPayment E.toEnv tx height s) := by
  unfold recordPayment
  split
  · exact h
  · split_ifs
    · exact h.step (.payment _ rfl)
    · exact h

theorem handleMoneyReceived2_changes {b : Block} {amount : UInt64} {td : MoneyTransfer2Details}
    (h : Changes E height w₀ w) :
    Leaves (Changes E height w₀) id (handleMoneyReceived2 E.toEnv b tx amount td w) := by
  unfold handleMoneyReceived2
  split
  · exact .error (h.step (.history _))
  · exact .ok (h.step (.history _))

theorem handleMoneySpent2_changes {b : Block} {amount : UInt64} {td : MoneyTransfer2Details}
    {recipient recipientAlias : Blob} (h : Changes E height w₀ w) :
    Leaves (Changes E height w₀) id
      (handleMoneySpent2 E.toEnv b tx amount td recipient recipientAlias w) := by
  unfold handleMoneySpent2
  split
  · exact .error (h.step (.history _))
  · exact .ok (h.step (.history _))

theorem recordHistory_changes {b : Block} {recipient recipientAlias : Blob} {got spent : UInt64}
    {mtd : MoneyTransfer2Details} (h : Changes E height w₀ w) :
    Leaves (Changes E height w₀) id
      (recordHistory E.toEnv b tx recipient recipientAlias got spent mtd w) := by
  unfold recordHistory
  split_ifs
  · exact handleMoneySpent2_changes h
  · exact (handleMoneySpent2_changes h).bind fun _ hw => handleMoneyReceived2_changes hw
  · exact handleMoneyReceived2_changes h
  · exact .ok h

theorem processNewTransaction_changes {oIndexes : Option (List UInt64)} {b : Block}
    (h : Changes E height w₀ w) :
    Leaves (Changes E height w₀) id (processNewTransaction E oIndexes tx height b w) := by
  have hu : Changes E height w₀ (processUnconfirmed E.toEnv tx w).2 := processUnconfirmed_changes h
  unfold processNewTransaction
  simp only
  split
  · exact .error hu
  · split
    · exact .error hu
    · exact (receiveMoney_changes hu).bind fun s hs =>
        (spendInputs_changes hs).bind fun s hs => recordHistory_changes (recordPayment_changes hs)

theorem processTransactions_changes {oIndexes : ℕ → Option (List UInt64)} {b : Block} {i : ℕ}
    {l : List Blob} (h : Changes E height w₀ w) :
    Leaves (Changes E height w₀) id (processTransactions E oIndexes height b i l w) := by
  induction l generalizing i w with
  | nil => exact .ok h
  | cons txBlob l ih =>
    unfold processTransactions
    split
    · exact .error h
    · exact (processNewTransaction_changes h).bind fun _ hw => ih hw

theorem scanBlock_changes {sb : ServedBlock} {b : Block} (h : Changes E height w₀ w) :
    Leaves (Changes E height w₀) id (scanBlock E sb b height w) := by
  unfold scanBlock
  cases w.isScanned b with
  | true => exact (processNewTransaction_changes h).bind fun _ hw => processTransactions_changes hw
  | false => exact .ok h

end Transaction

section Kept

variable {E : WalletEnv} {height : ℕ} {w w' : Wallet2}

/-- The parts of a wallet that scanning does not write. -/
structure SameSetup (w w' : Wallet2) : Prop where
  account : w'.account = w.account
  isViewOnly : w'.isViewOnly = w.isViewOnly
  blockchain : w'.blockchain = w.blockchain
  pendingKeyImages : w'.pendingKeyImages = w.pendingKeyImages

theorem Changes.sameSetup (h : Changes E height w w') : SameSetup w w' := by
  induction h with
  | refl => exact ⟨rfl, rfl, rfl, rfl⟩
  | tail _ hstep ih =>
    obtain ⟨ha, hv, hb, hp⟩ := ih
    cases hstep <;> exact ⟨ha, hv, hb, hp⟩

theorem Changes.known (h : Changes E height w w') {ki : KeyImage} (hki : w.keyImages.get ki ≠ none) :
    w'.keyImages.get ki ≠ none := by
  induction h with
  | refl => exact hki
  | tail _ hstep ih =>
    cases hstep with
    | transfer td =>
      unfold addTransfer
      simp only
      split_ifs
      · exact ih
      · rw [Map.get_set]
        split_ifs
        · exact Option.some_ne_none _
        · exact ih
    | _ => exact ih

/-- Everything the wallet holds was received below `h`. -/
structure Below (h : ℕ) (w : Wallet2) : Prop where
  transfers : ∀ td ∈ w.transfers, td.blockHeight < h
  payments : ∀ p ∈ w.payments, p.2.blockHeight < h

theorem Changes.below (h : Changes E height w w') {n : ℕ} (hn : height < n) (hw : Below n w) :
    Below n w' := by
  induction h with
  | refl => exact hw
  | tail _ hstep ih =>
    obtain ⟨ht, hp⟩ := ih
    cases hstep with
    | transfer td hheight =>
      refine ⟨fun td' htd => ?_, hp⟩
      rcases List.mem_append.mp htd with htd | htd
      · exact ht _ htd
      · rw [List.mem_singleton.mp htd, hheight]
        exact hn
    | spent =>
      refine ⟨fun td htd => ?_, hp⟩
      obtain ⟨i, hi⟩ := List.mem_iff_getElem?.mp htd
      rw [List.getElem?_modify] at hi
      obtain ⟨td', htd', rfl⟩ := Option.map_eq_some_iff.mp hi
      have := ht _ (List.mem_iff_getElem?.mpr ⟨i, htd'⟩)
      split_ifs <;> exact this
    | payment p hheight =>
      refine ⟨ht, fun p' hp' => ?_⟩
      rcases List.mem_append.mp hp' with hp' | hp'
      · exact hp _ hp'
      · rw [List.mem_singleton.mp hp', hheight]
        exact hn
    | _ => exact ⟨ht, hp⟩

end Kept

end Wallet2

end Boolberry
