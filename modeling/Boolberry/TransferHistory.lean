import Boolberry.WalletChanges

/-!
# The transfer history

`get_transfers` goes through the history backwards and stops at the first entry below the
range of heights. That is all of the range where the heights of the history never
decrease; `detach_blockchain` leaves the entries of the blocks it removes, so they do
after a reorganisation.
-/

namespace Boolberry
open Aborting

/-- `COMMAND_RPC_GET_TRANSFERS::request`; `incoming` and `outgoing` are its `in` and `out`. -/
structure GetTransfersRequest where
  incoming : Bool
  outgoing : Bool
  pool : Bool
  filterByHeight : Bool
  minHeight : ℕ
  maxHeight : ℕ
deriving DecidableEq, Repr

structure GetTransfersResponse where
  incoming : List WalletTransferInfo := []
  outgoing : List WalletTransferInfo := []
  pool : List WalletTransferInfo := []
deriving DecidableEq, Repr

/-- `wallet_transfer_info_from_unconfirmed_transfer_details`. No positions are looked up, so nothing
throws. -/
def walletTransferInfoFromUnconfirmed (E : Env) (u : UnconfirmedTransferDetails) : WalletTransferInfo :=
  { stateLeft id (prepareWti E {} 0 (UInt64.ofNat u.sentTime) u.tx (getOutsMoneyAmount u.tx - u.change) {})
    with destinations := u.recipient, destinationAlias := u.recipientAlias }

/-- An entry put into the response. -/
def GetTransfersResponse.push (req : GetTransfersRequest) (thi : WalletTransferInfo)
    (res : GetTransfersResponse) : GetTransfersResponse :=
  { res with
    incoming := if thi.isIncome && req.incoming then res.incoming ++ [thi] else res.incoming
    outgoing := if !thi.isIncome && req.outgoing then res.outgoing ++ [thi] else res.outgoing }

/-- The loop of `get_transfers` over the history, the newest entry first. -/
def getTransfersGo (req : GetTransfersRequest) :
    List WalletTransferInfo → GetTransfersResponse → GetTransfersResponse
  | [], res => res
  | thi :: l, res =>
      if req.filterByHeight then
        if thi.height = 0 then getTransfersGo req l res
        else if thi.height < req.minHeight then res
        else if req.maxHeight < thi.height then getTransfersGo req l res
        else getTransfersGo req l (res.push req thi)
      else getTransfersGo req l (res.push req thi)

/-- `get_transfers`, the transfers that wait for confirmation in the order of their containers. -/
def Wallet2.getTransfers (E : Env) (w : Wallet2) (unconfirmedTxs : List UnconfirmedTransferDetails)
    (unconfirmedInTransfers : List WalletTransferInfo) (req : GetTransfersRequest) :
    GetTransfersResponse :=
  if w.transferHistory = [] then {}
  else
    let res := getTransfersGo req w.transferHistory.reverse {}
    if req.pool then
      { res with pool := unconfirmedTxs.map (walletTransferInfoFromUnconfirmed E) ++ unconfirmedInTransfers }
    else res

section Shown

variable {req : GetTransfersRequest} {l : List WalletTransferInfo} {min max : ℕ}

/-- A height of the range. -/
def inRange (min max : ℕ) (thi : WalletTransferInfo) : Bool :=
  decide (thi.height ≠ 0 ∧ min ≤ thi.height ∧ thi.height ≤ max)

/-- An entry that ends the scan. -/
def below (min : ℕ) (thi : WalletTransferInfo) : Bool := decide (thi.height ≠ 0 ∧ thi.height < min)

/-- The entries of the range that a scan comes to. -/
def shown (min max : ℕ) (l : List WalletTransferInfo) : List WalletTransferInfo :=
  (l.takeWhile fun thi => !below min thi).filter (inRange min max)

/-- The heights never decrease, those that are not known aside. -/
def Ascending (l : List ℕ) : Prop := l.Pairwise fun h h' => h' = 0 ∨ h ≤ h'

theorem not_inRange_of_below {thi : WalletTransferInfo} (h : below min thi = true) :
    inRange min max thi = false := by
  simp only [below, decide_eq_true_eq] at h
  simp only [inRange, decide_eq_false_iff_not]
  omega

theorem getTransfersGo_eq (hfilter : req.filterByHeight = true) (hin : req.incoming = true)
    (hout : req.outgoing = true) (res : GetTransfersResponse) :
    getTransfersGo req l res = { res with
      incoming := res.incoming ++ (shown req.minHeight req.maxHeight l).filter WalletTransferInfo.isIncome
      outgoing := res.outgoing ++
        (shown req.minHeight req.maxHeight l).filter fun thi => !thi.isIncome } := by
  induction l generalizing res with
  | nil => simp [getTransfersGo, shown]
  | cons thi l ih =>
    unfold getTransfersGo shown
    rw [if_pos hfilter]
    split_ifs with hzero hmin hmax
    · rw [List.takeWhile_cons_of_pos (by simp [below, hzero]),
        List.filter_cons_of_neg (by simp [inRange, hzero])]
      exact ih res
    · rw [List.takeWhile_cons_of_neg (by simp [below, hzero, hmin])]
      simp
    · rw [List.takeWhile_cons_of_pos (by simp [below, hmin]),
        List.filter_cons_of_neg (by simp [inRange, hmax])]
      exact ih res
    · rw [List.takeWhile_cons_of_pos (by simp [below, hmin]),
        List.filter_cons_of_pos (by simp [inRange, hzero, Nat.not_lt.mp hmin, Nat.not_lt.mp hmax]), ih]
      unfold GetTransfersResponse.push shown
      cases hincome : thi.isIncome <;> simp [hin, hout, hincome]

theorem shown_sublist : (shown min max l).Sublist (l.filter (inRange min max)) :=
  (List.takeWhile_sublist _).filter _

/-- A scan shows every range whole just where the heights never increase on its way. -/
theorem shown_eq_iff :
    (∀ min max, min ≤ max → shown min max l = l.filter (inRange min max)) ↔
      l.Pairwise fun y x => y.height = 0 ∨ x.height ≤ y.height := by
  induction l with
  | nil => exact iff_of_true (fun _ _ _ => rfl) .nil
  | cons y l ih =>
    rw [List.pairwise_cons, ← ih]
    constructor
    · intro h
      have hstop : ∀ min max, min ≤ max → below min y = true → l.filter (inRange min max) = [] := by
        intro min max hle hbelow
        have := h min max hle
        unfold shown at this
        rw [List.takeWhile_cons_of_neg (by simp [hbelow]),
          List.filter_cons_of_neg (by simp [not_inRange_of_below hbelow])] at this
        exact this.symm
      refine ⟨fun x hx => ?_, fun min max hle => ?_⟩
      · by_contra hlt
        obtain ⟨hy, hlt⟩ := not_or.mp hlt
        have hnil := hstop x.height x.height le_rfl (by simp [below]; omega)
        exact List.filter_eq_nil_iff.mp hnil x hx (by simp [inRange]; omega)
      · by_cases hbelow : below min y = true
        · rw [hstop min max hle hbelow]
          have := @shown_sublist l min max
          rw [hstop min max hle hbelow] at this
          exact List.sublist_nil.mp this
        · have := h min max hle
          unfold shown at this
          rw [List.takeWhile_cons_of_pos (by simpa using hbelow), List.filter_cons, List.filter_cons] at this
          split_ifs at this
          · exact List.cons_injective this
          · exact this
    · rintro ⟨hy, h⟩ min max hle
      unfold shown
      by_cases hbelow : below min y = true
      · rw [List.takeWhile_cons_of_neg (by simp [hbelow]),
          List.filter_cons_of_neg (by simp [not_inRange_of_below hbelow])]
        refine (List.filter_eq_nil_iff.mpr fun x hx => ?_).symm
        have := hy x hx
        simp only [below, decide_eq_true_eq] at hbelow
        simp only [inRange, decide_eq_true_eq]
        omega
      · rw [List.takeWhile_cons_of_pos (by simpa using hbelow), List.filter_cons, List.filter_cons]
        have := h min max hle
        unfold shown at this
        rw [this]

end Shown

/-- Every range of heights is shown whole, with the newest entry first. -/
def TransfersExact (E : Env) (w : Wallet2) : Prop :=
  ∀ unconfirmedTxs unconfirmedInTransfers (req : GetTransfersRequest), req.filterByHeight = true →
    req.incoming = true → req.outgoing = true → req.minHeight ≤ req.maxHeight →
    let res := w.getTransfers E unconfirmedTxs unconfirmedInTransfers req
    let entries := w.transferHistory.reverse.filter (inRange req.minHeight req.maxHeight)
    res.incoming = entries.filter WalletTransferInfo.isIncome ∧
      res.outgoing = entries.filter fun thi => !thi.isIncome

section Exact

variable {E : WalletEnv} {w w₀ : Wallet2}

theorem getTransfers_lists (E : Env) (w : Wallet2) (unconfirmedTxs : List UnconfirmedTransferDetails)
    (unconfirmedInTransfers : List WalletTransferInfo) {req : GetTransfersRequest}
    (hfilter : req.filterByHeight = true) (hin : req.incoming = true) (hout : req.outgoing = true) :
    let res := w.getTransfers E unconfirmedTxs unconfirmedInTransfers req
    let entries := shown req.minHeight req.maxHeight w.transferHistory.reverse
    res.incoming = entries.filter WalletTransferInfo.isIncome ∧
      res.outgoing = entries.filter fun thi => !thi.isIncome := by
  unfold Wallet2.getTransfers
  rw [getTransfersGo_eq hfilter hin hout]
  split_ifs with hnil
  · rw [hnil]
    exact ⟨rfl, rfl⟩
  · exact ⟨rfl, rfl⟩
  · exact ⟨rfl, rfl⟩

theorem eq_of_filters {α : Type} {p : α → Bool} {l l' : List α} (hsub : l.Sublist l')
    (hpos : l.filter p = l'.filter p) (hneg : (l.filter fun a => !p a) = l'.filter fun a => !p a) :
    l = l' := by
  refine hsub.eq_of_length ?_
  rw [List.length_eq_length_filter_add p, List.length_eq_length_filter_add (l := l') p, hpos, hneg]

theorem ascending_reverse (l : List WalletTransferInfo) :
    Ascending (l.map WalletTransferInfo.height) ↔
      l.reverse.Pairwise fun y x => y.height = 0 ∨ x.height ≤ y.height := by
  unfold Ascending
  rw [List.pairwise_map, List.pairwise_reverse]

theorem transfersExact_iff (E : Env) (w : Wallet2) :
    TransfersExact E w ↔ Ascending (w.transferHistory.map WalletTransferInfo.height) := by
  rw [ascending_reverse, ← shown_eq_iff]
  constructor
  · intro h min max hle
    obtain ⟨hin, hout⟩ := h [] [] ⟨true, true, false, true, min, max⟩ rfl rfl rfl hle
    obtain ⟨hin', hout'⟩ := @getTransfers_lists E w [] [] ⟨true, true, false, true, min, max⟩ rfl rfl rfl
    exact eq_of_filters shown_sublist (hin'.symm.trans hin) (hout'.symm.trans hout)
  · intro h txs transfers req hfilter hin hout hle
    obtain ⟨hin', hout'⟩ := getTransfers_lists E w txs transfers hfilter hin hout
    rw [h _ _ hle] at hin' hout'
    exact ⟨hin', hout'⟩

end Exact

namespace Wallet2

section Recording

variable {E : WalletEnv} {w w₀ : Wallet2} {tx : Transaction} {b : Block} {height h : ℕ}
  {H : List WalletTransferInfo}

/-- The history has grown by entries at height `h`. -/
def Recorded (h : ℕ) (H : List WalletTransferInfo) (w : Wallet2) : Prop :=
  ∃ es, w.transferHistory = H ++ es ∧ ∀ e ∈ es, e.height = h

theorem recorded_refl (h : ℕ) (w : Wallet2) : Recorded h w.transferHistory w :=
  ⟨[], (List.append_nil _).symm, by simp⟩

theorem recorded_of_eq {w' : Wallet2} (hw : Recorded h H w)
    (heq : w'.transferHistory = w.transferHistory) : Recorded h H w' := by
  obtain ⟨es, hes, hheights⟩ := hw
  exact ⟨es, heq.trans hes, hheights⟩

theorem recorded_push {wti : WalletTransferInfo} (hw : Recorded h H w) (hwti : wti.height = h) :
    Recorded h H { w with transferHistory := w.transferHistory ++ [wti] } := by
  obtain ⟨es, hes, hheights⟩ := hw
  refine ⟨es ++ [wti], by rw [hes, List.append_assoc], fun e he => ?_⟩
  rcases List.mem_append.mp he with he | he
  · exact hheights e he
  · rw [List.mem_singleton.mp he, hwti]

theorem processUnconfirmed_history :
    (processUnconfirmed E.toEnv tx w).2.transferHistory = w.transferHistory := by
  unfold processUnconfirmed
  split <;> rfl

theorem receiveOut_history {txPubKey : PublicKey} {oIndexes : List UInt64} {s : TxScan} {o : ℕ}
    (hs : s.wallet.transferHistory = H) :
    Leaves (·.transferHistory = H) TxScan.wallet (receiveOut E tx txPubKey height oIndexes s o) := by
  unfold receiveOut
  split
  · split
    · exact .error hs
    · split
      · split_ifs
        · exact .error hs
        · exact .ok hs
      · exact .ok hs
  · exact .error hs

theorem receiveMoney_history {oIndexes : Option (List UInt64)} {txPubKey : PublicKey}
    {outs : List ℕ} {money : UInt64} (hw : w.transferHistory = H) :
    Leaves (·.transferHistory = H) TxScan.wallet
      (receiveMoney E oIndexes tx txPubKey height outs money w) := by
  unfold receiveMoney
  split_ifs with hmoney
  · split
    · exact .error hw
    · split_ifs
      · exact .error hw
      · exact Leaves.foldlM (fun _ _ hs => receiveOut_history hs) hw
  · exact .ok hw

theorem spendInputs_history {l : List TxinToKey} {i : ℕ} {s : TxScan}
    (hs : s.wallet.transferHistory = H) :
    Leaves (·.transferHistory = H) TxScan.wallet (spendInputs i l s) := by
  induction l generalizing i s with
  | nil => exact .ok hs
  | cons intk l ih =>
    unfold spendInputs setTransferSpentFlag
    split
    · exact ih hs
    · split_ifs
      · exact ih hs
      · exact .error hs

theorem recordPayment_history {s : TxScan} :
    (recordPayment E.toEnv tx height s).transferHistory = s.wallet.transferHistory := by
  unfold recordPayment
  split
  · rfl
  · split_ifs <;> rfl

/-- Filled or half filled, a record has the height it was made for. -/
theorem prepareWti_height {E : Env} {wti : WalletTransferInfo} {timestamp amount : UInt64}
    {td : MoneyTransfer2Details} :
    Leaves (fun wti => wti.height = height) id (prepareWti E wti height timestamp tx amount td) := by
  unfold prepareWti
  cases fillTransferDetails tx td with
  | error details => exact .error rfl
  | ok details => exact .ok rfl

theorem handleMoneyReceived2_recorded {amount : UInt64} {td : MoneyTransfer2Details}
    (hw : Recorded (getBlockHeight b) H w) :
    Leaves (Recorded (getBlockHeight b) H) id (handleMoneyReceived2 E.toEnv b tx amount td w) := by
  have hheight := @prepareWti_height tx (getBlockHeight b) E.toEnv {} b.timestamp amount td
  unfold handleMoneyReceived2
  split
  · next hwti =>
    rw [hwti, leaves_error] at hheight
    exact .error (recorded_push hw hheight)
  · next hwti =>
    rw [hwti, leaves_ok] at hheight
    exact .ok (recorded_push hw hheight)

theorem handleMoneySpent2_recorded {amount : UInt64} {td : MoneyTransfer2Details}
    {recipient recipientAlias : Blob} (hw : Recorded (getBlockHeight b) H w) :
    Leaves (Recorded (getBlockHeight b) H) id
      (handleMoneySpent2 E.toEnv b tx amount td recipient recipientAlias w) := by
  have hheight := @prepareWti_height tx (getBlockHeight b) E.toEnv {} b.timestamp amount td
  unfold handleMoneySpent2
  split
  · next hwti =>
    rw [hwti, leaves_error] at hheight
    exact .error (recorded_push hw hheight)
  · next hwti =>
    rw [hwti, leaves_ok] at hheight
    exact .ok (recorded_push hw hheight)

theorem recordHistory_recorded {recipient recipientAlias : Blob} {got spent : UInt64}
    {mtd : MoneyTransfer2Details} (hw : Recorded (getBlockHeight b) H w) :
    Leaves (Recorded (getBlockHeight b) H) id
      (recordHistory E.toEnv b tx recipient recipientAlias got spent mtd w) := by
  unfold recordHistory
  split_ifs
  · exact handleMoneySpent2_recorded hw
  · exact (handleMoneySpent2_recorded hw).bind fun _ hw => handleMoneyReceived2_recorded hw
  · exact handleMoneyReceived2_recorded hw
  · exact .ok hw

theorem processNewTransaction_recorded {oIndexes : Option (List UInt64)}
    (hw : Recorded (getBlockHeight b) H w) :
    Leaves (Recorded (getBlockHeight b) H) id (processNewTransaction E oIndexes tx height b w) := by
  have hu : Recorded (getBlockHeight b) H (processUnconfirmed E.toEnv tx w).2 :=
    recorded_of_eq hw processUnconfirmed_history
  unfold processNewTransaction
  simp only
  split
  · exact .error hu
  · split
    · exact .error hu
    · refine ((receiveMoney_history rfl).mono fun _ => recorded_of_eq hu).bind fun s hs => ?_
      refine ((spendInputs_history rfl).mono fun _ => recorded_of_eq hs).bind fun s hs => ?_
      exact recordHistory_recorded (recorded_of_eq hs recordPayment_history)

theorem processTransactions_recorded {oIndexes : ℕ → Option (List UInt64)} {i : ℕ} {l : List Blob}
    (hw : Recorded (getBlockHeight b) H w) :
    Leaves (Recorded (getBlockHeight b) H) id (processTransactions E oIndexes height b i l w) := by
  induction l generalizing i w with
  | nil => exact .ok hw
  | cons txBlob l ih =>
    unfold processTransactions
    split
    · exact .error hw
    · exact (processNewTransaction_recorded hw).bind fun _ hw => ih hw

theorem processNewBlockchainEntry_recorded {sb : ServedBlock} {blId : Hash}
    (hw : Recorded (getBlockHeight b) H w) :
    Leaves (Recorded (getBlockHeight b) H) id (processNewBlockchainEntry E b sb blId height w) := by
  unfold processNewBlockchainEntry
  split_ifs
  · exact .error hw
  · refine Leaves.bind (f := id) ?_ fun w' hw' => .ok (recorded_of_eq hw' rfl)
    unfold scanBlock
    cases w.isScanned b with
    | true => exact (processNewTransaction_recorded hw).bind fun _ hw => processTransactions_recorded hw
    | false => exact .ok hw

theorem detachBlockchain_history (w : Wallet2) :
    Leaves (·.transferHistory = w.transferHistory) id (detachBlockchain height w) := by
  have hloop : ∀ (l : List TransferDetails) (w' : Wallet2), w'.transferHistory = w.transferHistory →
      Leaves (·.transferHistory = w.transferHistory) id (detachKeyImages l w') := by
    intro l
    induction l with
    | nil => exact fun _ hw' => .ok hw'
    | cons td l ih =>
      intro w' hw'
      unfold detachKeyImages
      split
      · exact .error hw'
      · exact ih _ hw'
  exact (hloop _ w rfl).bind fun _ hw' => .ok hw'

theorem pullBlock_recorded {start index : ℕ} {sb : ServedBlock}
    (hb : parseAndValidateBlockFromBlob sb.block = some b) (w : Wallet2) :
    Leaves (Recorded (getBlockHeight b) w.transferHistory) Prod.snd (pullBlock E start index sb w) := by
  have hrefl := recorded_refl (getBlockHeight b) w
  unfold pullBlock
  rw [hb]
  simp only
  split
  · exact (processNewBlockchainEntry_recorded hrefl).bind fun _ hw => .ok hw
  · split_ifs
    · exact .ok hrefl
    · exact .error hrefl
    · refine ((detachBlockchain_history w).mono fun _ => recorded_of_eq hrefl).bind fun _ hw => ?_
      exact (processNewBlockchainEntry_recorded hw).bind fun _ hw => .ok hw

end Recording

end Wallet2

/-- The blocks of an answer up to the first that is refused. -/
def parsedBlocks : List ServedBlock → List Block
  | [] => []
  | sb :: l =>
      match parseAndValidateBlockFromBlob sb.block with
      | none => []
      | some bl => bl :: parsedBlocks l

/-- The blocks of an answer from the first on that is not the wallet's own at its place. -/
def newBlocks (E : Env) (blockchain : List Hash) : ℕ → List ServedBlock → List Block
  | _, [] => []
  | index, sb :: l =>
      match parseAndValidateBlockFromBlob sb.block with
      | none => []
      | some bl =>
          if blockchain[index]? = some (getBlockHash E bl) then newBlocks E blockchain (index + 1) l
          else bl :: parsedBlocks l

/-- The new blocks of an answer are not below what the history has, nor below one another. -/
def PullInOrder (E : Env) (getBlocksFast : GetBlocksFast) (w : Wallet2) : Prop :=
  ∀ start blocks, getBlocksFast (walletShortChainHistory w.blockchain) = some (start, blocks) →
    Ascending (w.transferHistory.map WalletTransferInfo.height ++
      (newBlocks E w.blockchain start blocks).map getBlockHeight)

/-- The wallet behind a call of `pull_blocks`, whether it returns or throws. -/
def afterPull (E : WalletEnv) (w : Wallet2) (getBlocksFast : GetBlocksFast) : Wallet2 :=
  stateLeft Prod.snd (w.pullBlocks E getBlocksFast)

/-- The wallet behind a run of calls. -/
def afterPulls (E : WalletEnv) (answers : List GetBlocksFast) (w : Wallet2) : Wallet2 :=
  answers.foldl (afterPull E) w

/-- Every call of the run finds its answer in order. -/
def PullsInOrder (E : WalletEnv) : List GetBlocksFast → Wallet2 → Prop
  | [], _ => True
  | getBlocksFast :: answers, w =>
      PullInOrder E.toEnv getBlocksFast w ∧ PullsInOrder E answers (afterPull E w getBlocksFast)

section Runs

variable {E : WalletEnv} {w : Wallet2}

theorem Ascending.left {l l' : List ℕ} (h : Ascending (l ++ l')) : Ascending l :=
  (List.pairwise_append.mp h).1

/-- Entries at the height of the next block keep the order. -/
theorem Ascending.insert {l l' es : List ℕ} {h : ℕ} (hl : Ascending (l ++ h :: l'))
    (hes : ∀ e ∈ es, e = h) : Ascending (l ++ es ++ l') := by
  obtain ⟨hleft, hright, hcross⟩ := List.pairwise_append.mp hl
  obtain ⟨hfirst, hrest⟩ := List.pairwise_cons.mp hright
  refine List.pairwise_append.mpr ⟨List.pairwise_append.mpr ⟨hleft, ?_, ?_⟩, hrest, ?_⟩
  · refine List.Pairwise.imp_of_mem (fun ha hb _ => .inr ?_) (List.pairwise_of_forall fun _ _ => trivial)
    rw [hes _ ha, hes _ hb]
  · intro a ha b hb
    rw [hes b hb]
    exact hcross a ha h List.mem_cons_self
  · intro a ha b hb
    rcases List.mem_append.mp ha with ha | ha
    · exact hcross a ha b (List.mem_cons_of_mem _ hb)
    · rw [hes a ha]
      exact hfirst b hb

theorem Wallet2.Recorded.ascending {h : ℕ} {w' : Wallet2} {heights : List ℕ}
    (hw : Wallet2.Recorded h w.transferHistory w')
    (horder : Ascending (w.transferHistory.map WalletTransferInfo.height ++ h :: heights)) :
    Ascending (w'.transferHistory.map WalletTransferInfo.height ++ heights) := by
  obtain ⟨es, hes, hheights⟩ := hw
  rw [hes, List.map_append]
  refine horder.insert fun e he => ?_
  obtain ⟨x, hx, rfl⟩ := List.mem_map.mp he
  exact hheights x hx

theorem pullBlocksGo_ascending {start index added : ℕ} {l : List ServedBlock}
    (horder : Ascending (w.transferHistory.map WalletTransferInfo.height ++
      (parsedBlocks l).map getBlockHeight)) :
    Leaves (fun w => Ascending (w.transferHistory.map WalletTransferInfo.height)) Prod.snd
      (Wallet2.pullBlocksGo E start index l added w) := by
  induction l generalizing index added w with
  | nil => exact .ok horder.left
  | cons sb l ih =>
    unfold parsedBlocks at horder
    unfold Wallet2.pullBlocksGo
    cases hb : parseAndValidateBlockFromBlob sb.block with
    | none =>
      unfold Wallet2.pullBlock
      rw [hb]
      exact .error horder.left
    | some b =>
      rw [hb] at horder
      have hround : Leaves (fun w' => Ascending (w'.transferHistory.map WalletTransferInfo.height ++
          (parsedBlocks l).map getBlockHeight)) Prod.snd (Wallet2.pullBlock E start index sb w) :=
        (Wallet2.pullBlock_recorded hb w).mono fun w' hw' => hw'.ascending horder
      cases hr : Wallet2.pullBlock E start index sb w with
      | error w' =>
        rw [hr, leaves_error] at hround
        exact .error hround.left
      | ok r =>
        rw [hr, leaves_ok] at hround
        exact ih hround

theorem pullBlocksGo_newBlocks {start index added : ℕ} {l : List ServedBlock}
    (horder : Ascending (w.transferHistory.map WalletTransferInfo.height ++
      (newBlocks E.toEnv w.blockchain index l).map getBlockHeight)) :
    Leaves (fun w => Ascending (w.transferHistory.map WalletTransferInfo.height)) Prod.snd
      (Wallet2.pullBlocksGo E start index l added w) := by
  induction l generalizing index added with
  | nil => exact .ok horder.left
  | cons sb l ih =>
    unfold newBlocks at horder
    cases hb : parseAndValidateBlockFromBlob sb.block with
    | none =>
      unfold Wallet2.pullBlocksGo Wallet2.pullBlock
      rw [hb] at horder ⊢
      exact .error horder.left
    | some b =>
      rw [hb] at horder
      simp only at horder
      by_cases hown : w.blockchain[index]? = some (getBlockHash E.toEnv b)
      · rw [if_pos hown] at horder
        have hround : Wallet2.pullBlock E start index sb w = .ok (false, w) := by
          unfold Wallet2.pullBlock
          rw [hb]
          simp only
          rw [hown]
          exact if_pos rfl
        unfold Wallet2.pullBlocksGo
        rw [hround]
        exact ih horder
      · rw [if_neg hown] at horder
        refine pullBlocksGo_ascending ?_
        unfold parsedBlocks
        rw [hb]
        exact horder

/-- A call that finds its answer in order leaves the history in order. -/
theorem afterPull_ascending {getBlocksFast : GetBlocksFast}
    (hw : Ascending (w.transferHistory.map WalletTransferInfo.height))
    (horder : PullInOrder E.toEnv getBlocksFast w) :
    Ascending ((afterPull E w getBlocksFast).transferHistory.map WalletTransferInfo.height) := by
  unfold afterPull
  refine (leaves_iff (P := fun w : Wallet2 =>
    Ascending (w.transferHistory.map WalletTransferInfo.height))).mp ?_
  unfold Wallet2.pullBlocks
  split
  · exact .error hw
  · next start blocks hanswer =>
    split_ifs
    · exact .error hw
    · exact pullBlocksGo_newBlocks (horder start blocks hanswer)

theorem afterPulls_ascending {answers : List GetBlocksFast}
    (hw : Ascending (w.transferHistory.map WalletTransferInfo.height))
    (horder : PullsInOrder E answers w) :
    Ascending ((afterPulls E answers w).transferHistory.map WalletTransferInfo.height) := by
  induction answers generalizing w with
  | nil => exact hw
  | cons getBlocksFast answers ih => exact ih (afterPull_ascending hw horder.1) horder.2

/-- A state shows its history just where the heights are in order, and in a run whose calls find their
answers in order every state does. -/
theorem getTransfers_exact (E : WalletEnv) :
    (∀ w, TransfersExact E.toEnv w ↔ Ascending (w.transferHistory.map WalletTransferInfo.height)) ∧
      ∀ answers w, w.transferHistory = [] → PullsInOrder E answers w →
        TransfersExact E.toEnv (afterPulls E answers w) := by
  refine ⟨fun w => transfersExact_iff E.toEnv w, fun answers w hnil horder => ?_⟩
  have hstart : Ascending (w.transferHistory.map WalletTransferInfo.height) := by
    rw [hnil]
    exact .nil
  exact (transfersExact_iff _ _).mpr (afterPulls_ascending hstart horder)

/-- A payment at height 2, then another chain with one at height 1. -/
def sampleAnswers : List GetBlocksFast :=
  [fun _ => some (0, [sampleGenesis, sampleServed 1 0 [] [], sampleServed 2 0 [sampleOut 5 2] []]),
    fun _ => some (0, [sampleGenesis, sampleServed 1 1 [sampleOut 5 1] []])]

/-- Payments at the heights 1 and 2, each found by a call of its own. -/
def sampleGrowing : List GetBlocksFast :=
  [fun _ => some (0, [sampleGenesis, sampleServed 1 0 [sampleOut 5 1] []]),
    fun _ => some (0, [sampleGenesis, sampleServed 1 0 [sampleOut 5 1] [], sampleServed 2 0 [sampleOut 3 2] []])]

theorem getTransfers_exact_sample :
    let w := afterPulls sampleWalletEnv sampleGrowing (sampleWallet false)
    w.transferHistory.map WalletTransferInfo.height = [1, 2] ∧
      TransfersExact sampleWalletEnv.toEnv w := by
  refine ⟨by decide +kernel, (getTransfers_exact sampleWalletEnv).2 _ _ rfl ⟨?_, ?_, trivial⟩⟩
  · rintro _ _ ⟨⟩
    have hheights : ((newBlocks sampleWalletEnv.toEnv (sampleWallet false).blockchain 0
      [sampleGenesis, sampleServed 1 0 [sampleOut 5 1] []]).map getBlockHeight) = [1] := by decide +kernel
    rw [hheights]
    exact List.pairwise_singleton _ _
  · rintro _ _ ⟨⟩
    have hheights : (afterPull sampleWalletEnv (sampleWallet false)
        (fun _ => some (0, [sampleGenesis, sampleServed 1 0 [sampleOut 5 1] []]))).transferHistory.map
          WalletTransferInfo.height ++
        ((newBlocks sampleWalletEnv.toEnv (afterPull sampleWalletEnv (sampleWallet false)
          (fun _ => some (0, [sampleGenesis, sampleServed 1 0 [sampleOut 5 1] []]))).blockchain 0
          [sampleGenesis, sampleServed 1 0 [sampleOut 5 1] [], sampleServed 2 0 [sampleOut 3 2] []]).map
            getBlockHeight) = [1, 2] := by
      decide +kernel
    rw [hheights]
    exact List.pairwise_pair.mpr (.inr (by decide))

/-- The scan for height 2 stops at the entry of height 1. -/
theorem getTransfers_misses_entry :
    let w := afterPulls sampleWalletEnv sampleAnswers (sampleWallet false)
    w.transferHistory.map WalletTransferInfo.height = [2, 1] ∧
      ¬TransfersExact sampleWalletEnv.toEnv w := by
  intro w
  obtain ⟨hheights, hincoming, hentries⟩ : w.transferHistory.map WalletTransferInfo.height = [2, 1] ∧
      (w.getTransfers sampleWalletEnv.toEnv [] [] ⟨true, true, false, true, 2, 2⟩).incoming = [] ∧
      (w.transferHistory.reverse.filter (inRange 2 2)).filter WalletTransferInfo.isIncome ≠ [] := by
    decide +kernel
  exact ⟨hheights, fun h => hentries ((h [] [] ⟨true, true, false, true, 2, 2⟩ rfl rfl rfl
    le_rfl).1.symm.trans hincoming)⟩

end Runs

end Boolberry
