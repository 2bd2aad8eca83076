import Mathlib.Data.UInt
import Boolberry.Lib.Aborting
import Boolberry.Wallet

/-!
# Transfers in the pool

`scan_tx_pool` keeps the transactions of the daemon's pool that pay the wallet. Those it
knows from the call before are moved over as they are, and their amounts are not counted
again.
-/

namespace Boolberry
open KeyValue Aborting

/-- `m_unconfirmed_in_transfers` and `m_unconfirmed_balance`. -/
structure PoolWatch where
  unconfirmedInTransfers : Map Hash WalletTransferInfo := ∅
  unconfirmedBalance : UInt64 := 0
deriving DecidableEq

namespace Wallet2

/-- `tx_money_spent_in_ins`: the amounts of the inputs that spend an output of the wallet. -/
def moneySpentInIns (w : Wallet2) (tx : Transaction) : UInt64 :=
  (toKeyInputs tx).foldl
    (fun sum inp => if (w.keyImages.get inp.kImage).isSome then sum + inp.amount else sum) 0

/-- A round of `scan_tx_pool`; `known` is what the call before left. -/
def scanPoolTx (E : Env) (w : Wallet2) (now : UInt64) (known : Map Hash WalletTransferInfo)
    (s : PoolWatch) (txBlob : Blob) : Except PoolWatch PoolWatch :=
  match parseAndValidateTxFromBlob txBlob with
  | none => .error s
  | some tx =>
      let txHash := getTransactionHash E tx
      match known.get txHash with
      | some wti => .ok { s with unconfirmedInTransfers := s.unconfirmedInTransfers.insertNew txHash wti }
      | none =>
          match parseAndValidateTxExtra E tx with
          | none => .error s
          | some tei =>
              match lookupAccOuts E w.account.keys tei.txPubKey 0 tx.vout with
              | none => .error s
              | some (_, moneyGot) =>
                  if w.moneySpentInIns tx = 0 ∧ moneyGot ≠ 0 then
                    match prepareWti E { timestamp := now, isIncome := true, tx } 0 0 tx moneyGot {} with
                    | .error _ => .error s
                    | .ok wti => .ok
                        { unconfirmedInTransfers := s.unconfirmedInTransfers.set txHash wti
                          unconfirmedBalance := s.unconfirmedBalance + wti.amount }
                  else .ok s

/-- `scan_tx_pool`; `none` stands for a call of the daemon that fails or a status other than OK. -/
def scanTxPool (E : Env) (w : Wallet2) (now : UInt64) (txs : Option (List Blob)) (s : PoolWatch) :
    Except PoolWatch PoolWatch :=
  match txs with
  | none => .error s
  | some txs => txs.foldlM (scanPoolTx E w now s.unconfirmedInTransfers) {}

def unconfirmedBalance (s : PoolWatch) : Int64 :=
  if s.unconfirmedInTransfers.keys = ∅ then 0 else s.unconfirmedBalance.toInt64

/-- The money that the outputs of a transaction bring. -/
def moneyGotInOuts (E : Env) (w : Wallet2) (tx : Transaction) : UInt64 :=
  match parseAndValidateTxExtra E tx with
  | none => 0
  | some tei =>
      match lookupAccOuts E w.account.keys tei.txPubKey 0 tx.vout with
      | none => 0
      | some r => r.2

/-- An input spends an output of the wallet. -/
def spends (w : Wallet2) (tx : Transaction) : Bool :=
  (toKeyInputs tx).any fun inp => (w.keyImages.get inp.kImage).isSome

/-- The transaction pays the wallet without spending its outputs. -/
def paysOnly (E : Env) (w : Wallet2) (tx : Transaction) : Bool :=
  decide (w.moneyGotInOuts E tx ≠ 0) && !w.spends tx

/-- The entries are the transactions of `pool` that pay the wallet without spending its outputs, and the
balance is the sum of what they bring. -/
def PoolShown (E : Env) (w : Wallet2) (pool : List Transaction) (s : PoolWatch) : Prop :=
  (∀ txHash, (s.unconfirmedInTransfers.get txHash).isSome ↔
    ∃ tx ∈ pool, getTransactionHash E tx = txHash ∧ w.paysOnly E tx = true) ∧
  unconfirmedBalance s = (((pool.filter (w.paysOnly E)).map (w.moneyGotInOuts E)).sum).toInt64

section Scan

variable {E : Env} {w : Wallet2} {now : UInt64} {known : Map Hash WalletTransferInfo} {s s' : PoolWatch}

/-- The transaction was there at the call before. -/
def carried (E : Env) (known : Map Hash WalletTransferInfo) (tx : Transaction) : Bool :=
  (known.get (getTransactionHash E tx)).isSome

/-- The transaction is examined and entered. -/
def entered (E : Env) (w : Wallet2) (known : Map Hash WalletTransferInfo) (tx : Transaction) : Bool :=
  !carried E known tx && (decide (w.moneyGotInOuts E tx ≠ 0) && decide (w.moneySpentInIns tx = 0))

theorem prepareWti_amount {wti wti' : WalletTransferInfo} {height : ℕ} {timestamp amount : UInt64}
    {tx : Transaction} {td : MoneyTransfer2Details}
    (h : prepareWti E wti height timestamp tx amount td = .ok wti') : wti'.amount = amount := by
  unfold prepareWti at h
  cases hfill : fillTransferDetails tx td with
  | error details =>
    rw [hfill] at h
    cases h
  | ok details =>
    rw [hfill] at h
    cases h
    rfl

theorem scanPoolTx_ok {txBlob : Blob} (h : scanPoolTx E w now known s txBlob = .ok s') :
    ∃ tx, parseAndValidateTxFromBlob txBlob = some tx ∧
      s'.unconfirmedBalance = s.unconfirmedBalance +
        (if entered E w known tx then w.moneyGotInOuts E tx else 0) ∧
      ∀ txHash, (s'.unconfirmedInTransfers.get txHash).isSome ↔
        (s.unconfirmedInTransfers.get txHash).isSome ∨
          (getTransactionHash E tx = txHash ∧ (carried E known tx || entered E w known tx) = true) := by
  unfold scanPoolTx at h
  split at h
  · cases h
  next tx hparse =>
  refine ⟨tx, hparse, ?_⟩
  simp only at h
  cases hknown : known.get (getTransactionHash E tx) with
  | some wti =>
    -- known from the scan before: its record is carried over and no money is counted
    have hcarried : carried E known tx = true := by
      unfold carried
      rw [hknown]
      rfl
    have hentered : entered E w known tx = false := by
      unfold entered
      rw [hcarried]
      rfl
    rw [hknown] at h
    cases h
    rw [hcarried, hentered]
    refine ⟨by simp, fun txHash => ?_⟩
    rw [Map.get_insertNew]
    by_cases heq : txHash = getTransactionHash E tx
    · simp [heq]
    · simp [heq, Ne.symm heq]
  | none =>
    have hcarried : carried E known tx = false := by
      unfold carried
      rw [hknown]
      rfl
    rw [hknown] at h
    cases htei : parseAndValidateTxExtra E tx with
    | none =>
      rw [htei] at h
      cases h
    | some tei =>
      rw [htei] at h
      simp only at h
      cases hlook : lookupAccOuts E w.account.keys tei.txPubKey 0 tx.vout with
      | none =>
        rw [hlook] at h
        cases h
      | some r =>
        have hgot : w.moneyGotInOuts E tx = r.2 := by
          unfold moneyGotInOuts
          rw [htei]
          simp only
          rw [hlook]
        rw [hlook] at h
        simp only at h
        -- only a transaction that brings money is entered
        split_ifs at h with hmoney
        · have hentered : entered E w known tx = true := by
            simp [entered, hcarried, hgot, hmoney]
          split at h
          · cases h
          next wti hwti =>
          cases h
          rw [hcarried, hentered, hgot, prepareWti_amount hwti]
          refine ⟨rfl, fun txHash => ?_⟩
          rw [Map.get_set]
          by_cases heq : txHash = getTransactionHash E tx
          · simp [heq]
          · simp [heq, Ne.symm heq]
        · have hentered : entered E w known tx = false := by
            unfold entered
            rw [hcarried, hgot]
            by_contra hne
            simp only [Bool.not_false, Bool.true_and, Bool.not_eq_false, Bool.and_eq_true,
              decide_eq_true_eq] at hne
            exact hmoney hne.symm
          cases h
          rw [hcarried, hentered]
          exact ⟨by simp, fun txHash => by simp⟩

/-- The rounds of a call that returns: what is carried over or entered, and the sum of what is entered. -/
theorem scanLoop_ok {txs : List Blob}
    (h : txs.foldlM (scanPoolTx E w now known) s = .ok s') :
    let pool := txs.filterMap parseAndValidateTxFromBlob
    s'.unconfirmedBalance = s.unconfirmedBalance +
      ((pool.filter (entered E w known)).map (w.moneyGotInOuts E)).sum ∧
    ∀ txHash, (s'.unconfirmedInTransfers.get txHash).isSome ↔
      (s.unconfirmedInTransfers.get txHash).isSome ∨ ∃ tx ∈ pool, getTransactionHash E tx = txHash ∧
        (carried E known tx || entered E w known tx) = true := by
  induction txs generalizing s with
  | nil =>
    cases h
    exact ⟨by simp, fun _ => by simp⟩
  | cons txBlob txs ih =>
    obtain ⟨s₁, hround, hrest⟩ := bind_eq_ok.mp h
    obtain ⟨tx, hparse, hbalance, hkeys⟩ := scanPoolTx_ok hround
    obtain ⟨hbalance', hkeys'⟩ := ih hrest
    simp only
    rw [List.filterMap_cons_some hparse]
    refine ⟨?_, fun txHash => ?_⟩
    · rw [hbalance', hbalance, add_assoc, List.filter_cons]
      split_ifs
      · rw [List.map_cons, List.sum_cons]
      · rw [zero_add]
    · rw [hkeys', hkeys, or_assoc]
      simp only [List.mem_cons, exists_eq_or_imp]

/-- The pool as the daemon gives it: every identifier once. -/
structure PoolContent (E : Env) where
  txs : List Blob
  distinct : ((txs.filterMap parseAndValidateTxFromBlob).map (getTransactionHash E)).Nodup

def PoolContent.transactions {E : Env} (pool : PoolContent E) : List Transaction :=
  pool.txs.filterMap parseAndValidateTxFromBlob

/-- The condition on the pool, the wallet and what the call before left: what is carried over still pays
the wallet without spending its outputs, and sums up to nothing; and what is examined does not hide
spent outputs behind amounts that sum up to nothing. -/
structure CleanScan (E : Env) (w : Wallet2) (known : Map Hash WalletTransferInfo)
    (pool : List Transaction) : Prop where
  carried_pays : ∀ tx ∈ pool, carried E known tx = true → w.paysOnly E tx = true
  carried_sum : ((pool.filter (carried E known)).map (w.moneyGotInOuts E)).sum = 0
  spent : ∀ tx ∈ pool, carried E known tx = false → w.moneyGotInOuts E tx ≠ 0 →
    w.spends tx = true → w.moneySpentInIns tx ≠ 0

theorem moneySpentInIns_of_not_spends {tx : Transaction} (h : w.spends tx = false) :
    w.moneySpentInIns tx = 0 := by
  unfold spends at h
  unfold moneySpentInIns
  rw [List.any_eq_false] at h
  generalize toKeyInputs tx = l at h
  induction l with
  | nil => rfl
  | cons inp l ih =>
    rw [List.foldl_cons, if_neg (h inp List.mem_cons_self)]
    exact ih fun x hx => h x (List.mem_cons_of_mem _ hx)

/-- What a call leaves is what it should where each transaction of the pool is carried over or entered
just when it pays the wallet only. -/
theorem keys_iff {pool : List Transaction} {m : Map Hash WalletTransferInfo}
    (hdistinct : (pool.map (getTransactionHash E)).Nodup) {p q : Transaction → Bool}
    (hm : ∀ txHash, (m.get txHash).isSome ↔
      ∃ tx ∈ pool, getTransactionHash E tx = txHash ∧ p tx = true) :
    (∀ txHash, (m.get txHash).isSome ↔ ∃ tx ∈ pool, getTransactionHash E tx = txHash ∧ q tx = true) ↔
      ∀ tx ∈ pool, p tx = q tx := by
  have hinj := List.inj_on_of_nodup_map hdistinct
  have hat : ∀ r : Transaction → Bool, ∀ tx ∈ pool,
      (∃ tx' ∈ pool, getTransactionHash E tx' = getTransactionHash E tx ∧ r tx' = true) ↔
        r tx = true := by
    intro r tx htx
    constructor
    · rintro ⟨tx', htx', heq, hr⟩
      rwa [← hinj htx' htx heq]
    · exact fun hr => ⟨tx, htx, rfl, hr⟩
  constructor
  · intro h tx htx
    rw [Bool.eq_iff_iff, ← hat p tx htx, ← hat q tx htx, ← hm, h]
  · intro h txHash
    rw [hm]
    constructor
    · rintro ⟨tx, htx, heq, hp⟩
      exact ⟨tx, htx, heq, by rwa [← h tx htx]⟩
    · rintro ⟨tx, htx, heq, hq⟩
      exact ⟨tx, htx, heq, by rwa [h tx htx]⟩

theorem entered_iff {tx : Transaction} :
    (carried E known tx || entered E w known tx) = w.paysOnly E tx ↔
      (carried E known tx = true → w.paysOnly E tx = true) ∧
        (carried E known tx = false → w.moneyGotInOuts E tx ≠ 0 → w.spends tx = true →
          w.moneySpentInIns tx ≠ 0) := by
  unfold entered paysOnly
  cases hcarried : carried E known tx with
  | true => simp
  | false =>
    cases hspends : w.spends tx with
    | true => simp
    | false => simp [moneySpentInIns_of_not_spends hspends]

theorem sum_filter_or {l : List Transaction} {c e q : Transaction → Bool} (f : Transaction → UInt64)
    (hq : ∀ tx ∈ l, (c tx || e tx) = q tx) (hdisjoint : ∀ tx, c tx = true → e tx = false) :
    ((l.filter q).map f).sum = ((l.filter c).map f).sum + ((l.filter e).map f).sum := by
  induction l with
  | nil => simp
  | cons tx l ih =>
    obtain ⟨htx, hl⟩ := List.forall_mem_cons.mp hq
    rw [List.filter_cons, List.filter_cons, List.filter_cons, ← htx]
    cases hc : c tx with
    | true =>
      rw [hdisjoint tx hc]
      simp [ih hl, add_assoc]
    | false =>
      cases he : e tx with
      | true => simp [ih hl, add_left_comm]
      | false => simp [ih hl]

theorem toInt64_injective : Function.Injective UInt64.toInt64 :=
  Function.LeftInverse.injective (g := Int64.toUInt64) UInt64.toUInt64_toInt64

theorem poolShown_iff {pool : PoolContent E} (h : scanTxPool E w now (some pool.txs) s = .ok s') :
    PoolShown E w pool.transactions s' ↔
      CleanScan E w s.unconfirmedInTransfers pool.transactions := by
  obtain ⟨hbalance, hkeys⟩ := scanLoop_ok h
  have hmap : ∀ txHash, (s'.unconfirmedInTransfers.get txHash).isSome ↔
      ∃ tx ∈ pool.transactions, getTransactionHash E tx = txHash ∧
        (carried E s.unconfirmedInTransfers tx || entered E w s.unconfirmedInTransfers tx) = true := by
    intro txHash
    rw [hkeys, Map.get_empty]
    simp [PoolContent.transactions]
  replace hbalance : s'.unconfirmedBalance = ((pool.transactions.filter
      (entered E w s.unconfirmedInTransfers)).map (w.moneyGotInOuts E)).sum :=
    hbalance.trans (zero_add _)
  -- the answer for an empty map agrees with the balance
  have hanswer : unconfirmedBalance s' = s'.unconfirmedBalance.toInt64 := by
    unfold unconfirmedBalance
    split_ifs with hempty
    · have hnone : pool.transactions.filter (entered E w s.unconfirmedInTransfers) = [] := by
        rw [List.filter_eq_nil_iff]
        intro tx htx hentered
        have hsome := (hmap _).mpr ⟨tx, htx, rfl, by rw [hentered, Bool.or_true]⟩
        obtain ⟨wti, hwti⟩ := Option.isSome_iff_exists.mp hsome
        have hmem := Map.mem_keys.mpr ⟨wti, hwti⟩
        rw [hempty] at hmem
        exact absurd hmem (Finset.notMem_empty _)
      rw [hbalance, hnone]
      rfl
    · rfl
  have hdistinct : (pool.transactions.map (getTransactionHash E)).Nodup := pool.distinct
  have hiff := @keys_iff E pool.transactions _ hdistinct _ (w.paysOnly E) hmap
  unfold PoolShown
  rw [hiff, hanswer, hbalance, toInt64_injective.eq_iff]
  have hsplit : (∀ tx ∈ pool.transactions, (carried E s.unconfirmedInTransfers tx ||
        entered E w s.unconfirmedInTransfers tx) = w.paysOnly E tx) →
      (((pool.transactions.filter (entered E w s.unconfirmedInTransfers)).map (w.moneyGotInOuts E)).sum =
          ((pool.transactions.filter (w.paysOnly E)).map (w.moneyGotInOuts E)).sum ↔
        ((pool.transactions.filter (carried E s.unconfirmedInTransfers)).map
          (w.moneyGotInOuts E)).sum = 0) := by
    intro hall
    rw [sum_filter_or (w.moneyGotInOuts E) hall fun tx hc => by simp [entered, hc], eq_comm, add_eq_right]
  constructor
  · rintro ⟨hall, hsum⟩
    exact ⟨fun tx htx => (entered_iff.mp (hall tx htx)).1, (hsplit hall).mp hsum,
      fun tx htx => (entered_iff.mp (hall tx htx)).2⟩
  · rintro ⟨hpays, hsum, hspent⟩
    have hall := fun tx htx => entered_iff.mpr ⟨hpays tx htx, hspent tx htx⟩
    exact ⟨hall, (hsplit hall).mpr hsum⟩

/-- A call of `scan_tx_pool`, with the wallet as it is then and the daemon's answer. -/
structure PoolCall (E : Env) where
  wallet : Wallet2
  now : UInt64
  pool : Option (PoolContent E)

def PoolCall.scan (call : PoolCall E) (s : PoolWatch) : Except PoolWatch PoolWatch :=
  scanTxPool E call.wallet call.now (call.pool.map PoolContent.txs) s

/-- Each call of a run that returns satisfies `P`, with the state before it and the one after it. -/
def EachScan (P : PoolCall E → PoolWatch → PoolWatch → Prop) : List (PoolCall E) → PoolWatch → Prop
  | [], _ => True
  | call :: calls, s => (∀ s', call.scan s = .ok s' → P call s s') ∧
      EachScan P calls (stateLeft id (call.scan s))

theorem eachScan_congr {P Q : PoolCall E → PoolWatch → PoolWatch → Prop}
    (h : ∀ call s s', call.scan s = .ok s' → (P call s s' ↔ Q call s s')) {calls : List (PoolCall E)}
    {s : PoolWatch} : EachScan P calls s ↔ EachScan Q calls s := by
  induction calls generalizing s with
  | nil => exact Iff.rfl
  | cons call calls ih =>
    unfold EachScan
    rw [ih]
    exact and_congr_left fun _ => forall₂_congr (h call s)

theorem poolShown_runs_iff (E : Env) (calls : List (PoolCall E)) (s : PoolWatch) :
    EachScan (fun call _ s' => ∀ pool ∈ call.pool, PoolShown E call.wallet pool.transactions s') calls s ↔
      EachScan (fun call s _ => ∀ pool ∈ call.pool,
        CleanScan E call.wallet s.unconfirmedInTransfers pool.transactions) calls s := by
  refine eachScan_congr fun call s s' h => forall₂_congr fun pool hpool => ?_
  unfold PoolCall.scan at h
  rw [Option.mem_def.mp hpool] at h
  exact poolShown_iff h

/-- A transaction of the pool that pays the sample wallet 5. -/
def samplePoolTx : Transaction := sampleTx 9 [sampleIn 7 100] [sampleOut 5 9]

theorem samplePool_distinct : (([(txToBlob samplePoolTx).getD []].filterMap
    parseAndValidateTxFromBlob).map (getTransactionHash sampleWalletEnv.toEnv)).Nodup := by decide +kernel

def samplePool : PoolContent sampleWalletEnv.toEnv := ⟨[(txToBlob samplePoolTx).getD []], samplePool_distinct⟩

/-- Two calls with the same transaction in the pool: the second one shows it and counts nothing. -/
theorem poolShown_forgets_amount :
    ¬EachScan (fun call _ s' => ∀ pool ∈ call.pool,
        PoolShown sampleWalletEnv.toEnv call.wallet pool.transactions s')
      [⟨sampleWallet false, 0, some samplePool⟩, ⟨sampleWallet false, 0, some samplePool⟩] {} := by
  rintro ⟨-, h, -⟩
  generalize hs : (PoolCall.mk (sampleWallet false) 0 (some samplePool)).scan _ = r at h
  have hreturns : r.toOption.isSome = true := by
    rw [← hs]
    decide +kernel
  have hzero : unconfirmedBalance (stateLeft id r) = 0 := by
    rw [← hs]
    decide +kernel
  cases r with
  | error s' => cases hreturns
  | ok s' =>
    have hbalance := (h s' rfl samplePool rfl).2
    rw [show unconfirmedBalance s' = 0 from hzero] at hbalance
    exact absurd hbalance (by decide +kernel)

end Scan

end Wallet2

end Boolberry
