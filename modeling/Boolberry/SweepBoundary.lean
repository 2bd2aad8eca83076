import Boolberry.Lib.Bisection
import Boolberry.BlobSizes
import Boolberry.Reservations

/-!
# How much a sweep takes

`sweep_below` halves the interval below its first estimate until it knows how many inputs fit in a
transaction. It sends the largest one that fits, and tells the number of inputs of the last one it tried.
-/

namespace Boolberry
open KeyValue Aborting

def absoluteOutputOffsetsToRelative (off : List UInt64) : List UInt64 :=
  let sorted := off.mergeSort fun a b => decide (a ≤ b)
  List.zipWith (· - ·) sorted (0 :: sorted)

theorem absoluteOutputOffsetsToRelative_singleton (o : UInt64) :
    absoluteOutputOffsetsToRelative [o] = [o] := by
  unfold absoluteOutputOffsetsToRelative
  rw [List.mergeSort_singleton]
  simp

namespace Wallet2

/-- The input that `construct_tx` makes for a source. -/
def inputFor (E : WalletEnv) (account : AccountBase) (src : TxSourceEntry) : Txin :=
  .toKey
    { amount := src.amount
      keyOffsets := absoluteOutputOffsetsToRelative (src.outputs.map Prod.fst)
      kImage := (E.generateKeyImageHelper account src.realOutTxKey src.realOutputInTxIndex).2 }

/-- The input spends transfer `i`: it has its amount and the image of its key. -/
def SpendsTransfer (E : WalletEnv) (w : Wallet2) (i : ℕ) (inp : Txin) : Prop :=
  ∃ td txin, w.transfers[i]? = some td ∧ inp = .toKey txin ∧ td.amount = some txin.amount ∧
    txin.kImage = (E.generateKeyImageHelper w.account
      (((parseAndValidateTxExtra E.toEnv td.tx).map TxExtraInfo.txPubKey).getD nullPkey)
      td.internalOutputIndex).2

/-- The positions to sweep, the bigger amounts first. -/
def sweepSelected (x : SpendEnv) (r : SweepRequest) (w : Wallet2) : List ℕ :=
  (((w.collectSweep x.now r (List.range w.transfers.length)).getD []).mergeSort
    fun a b => decide (b.2 ≤ a.2)).map Prod.fst

/-- The number of inputs of the first try. -/
def sweepEstimate (x : SpendEnv) (r : SweepRequest) (w : Wallet2) : ℕ :=
  min (sweepSelected x r w).length (CURRENCY_MAX_TRANSACTION_BLOB_SIZE / (108 * (r.fakeOutsCount + 1)))

/-- `construct_tx` makes one input for each source, in their order. -/
def BuildsInputs (E : WalletEnv) (x : SpendEnv) (w : Wallet2) : Prop :=
  ∀ n arg res, x.constructTx n w.account arg = some res →
    res.tx.vin = arg.sources.map (inputFor E w.account)

/-- The blob size of the sweep's transaction with `b` inputs is `size b`, and does not get smaller with
more of them. -/
structure SweepSizes (E : WalletEnv) (x : SpendEnv) (r : SweepRequest) (w : Wallet2) (size : ℕ → ℕ) :
    Prop where
  made : ∀ outs n b c arg res, randomOuts x r.fakeOutsCount (sweepSelected x r w).length = some outs →
    tryConstructTx E x r w outs (sweepSelected x r w) n b = some (c, some (arg, res)) →
    getObjectBlobsize res.tx = size b
  monotone : ∀ b, 0 < b → b < sweepEstimate x r w → size b ≤ size (b + 1)

/-- The transaction sent spends the first `outsSwept` of the positions and is small enough, and one input
more would be too many unless the estimate has no more. -/
def SweepExact (E : WalletEnv) (x : SpendEnv) (r : SweepRequest) (w : Wallet2) (size : ℕ → ℕ)
    (res : SweepResult) : Prop :=
  (∃ tx, res.blob = .signed tx ∧
    List.Forall₂ (SpendsTransfer E w) ((sweepSelected x r w).take res.outsSwept) tx.vin ∧
    getObjectBlobsize tx < CURRENCY_MAX_TRANSACTION_BLOB_SIZE) ∧
  (res.outsSwept = sweepEstimate x r w ∨ CURRENCY_MAX_TRANSACTION_BLOB_SIZE ≤ size (res.outsSwept + 1))

/-- The estimate fits, or the halving of what is below it tries the largest number that fits after the
smallest one that does not. -/
def FitsLast (size : ℕ → ℕ) (estimate : ℕ) : Prop :=
  size estimate < CURRENCY_MAX_TRANSACTION_BLOB_SIZE ∨
    ∃ k < estimate, size k < CURRENCY_MAX_TRANSACTION_BLOB_SIZE ∧
      CURRENCY_MAX_TRANSACTION_BLOB_SIZE ≤ size (k + 1) ∧ Bisection.TriedAfter estimate 0 estimate k

/-- They are the positions collected, ordered by their amounts. -/
theorem sweepSelected_spec (x : SpendEnv) (r : SweepRequest) (w : Wallet2) {found : List (ℕ × UInt64)}
    (h : w.collectSweep x.now r (List.range w.transfers.length) = some found) :
    ∃ sorted : List (ℕ × UInt64), sweepSelected x r w = sorted.map Prod.fst ∧ sorted.Perm found ∧
      sorted.Pairwise fun a b => b.2 ≤ a.2 := by
  refine ⟨found.mergeSort fun a b => decide (b.2 ≤ a.2), ?_, List.mergeSort_perm _ _, ?_⟩
  · unfold sweepSelected
    rw [h]
    rfl
  · refine (List.pairwise_mergeSort ?_ ?_ found).imp of_decide_eq_true
    · intro a b c hab hbc
      exact decide_eq_true (UInt64.le_trans (of_decide_eq_true hbc) (of_decide_eq_true hab))
    · intro a b
      rw [Bool.or_eq_true, decide_eq_true_iff, decide_eq_true_iff]
      exact UInt64.le_total b.2 a.2

/-- `arg` is what `try_construct_tx` goes on with for the first `b` positions. -/
def IsTry (E : WalletEnv) (r : SweepRequest) (w : Wallet2) (outs : List (List (UInt64 × PublicKey)))
    (selected : List ℕ) (b : ℕ) (arg : CreateTxArg) : Prop :=
  b ≤ selected.length ∧
    ∃ sources, makeSources E w r.fakeOutsCount outs 0 (selected.take b) = some sources ∧
      r.fee < (sources.map TxSourceEntry.amount).foldl (· + ·) 0 ∧
      sweepArg r w sources ((sources.map TxSourceEntry.amount).foldl (· + ·) 0) = some arg

section Tries

variable {E : WalletEnv} {x : SpendEnv} {r : SweepRequest} {w : Wallet2}
  {outs : List (List (UInt64 × PublicKey))} {selected : List ℕ} {n b : ℕ} {arg : CreateTxArg}
  {res : CreateTxRes}

theorem tryConstructTx_iff {c : TryConstructResult} :
    tryConstructTx E x r w outs selected n b = some (c, some (arg, res)) ↔
      IsTry E r w outs selected b arg ∧ x.constructTx n w.account arg = some res ∧
        c = if CURRENCY_MAX_TRANSACTION_BLOB_SIZE ≤ getObjectBlobsize res.tx then .tooManyOutputs
          else .ok := by
  unfold tryConstructTx IsTry
  constructor
  · intro h
    split_ifs at h with hlen
    obtain ⟨sources, hsources, h⟩ := Option.bind_eq_some_iff.mp h
    dsimp only at h
    split_ifs at h with hfee
    · cases h
    · obtain ⟨arg', harg, h⟩ := Option.map_eq_some_iff.mp h
      split at h
      · cases h
      · next res' hres =>
        cases h
        exact ⟨⟨Nat.not_lt.mp hlen, sources, hsources, UInt64.not_le.mp hfee, harg⟩, hres, rfl⟩
  · rintro ⟨⟨hlen, sources, hsources, hfee, harg⟩, hres, rfl⟩
    rw [if_neg (Nat.not_lt.mpr hlen), hsources, Option.bind_some, if_neg (UInt64.not_le.mpr hfee), harg,
      Option.map_some, hres]

theorem IsTry.sources (h : IsTry E r w outs selected b arg) :
    makeSources E w r.fakeOutsCount outs 0 (selected.take b) = some arg.sources ∧
      arg.sources.length = b := by
  obtain ⟨hlen, sources, hsources, -, harg⟩ := h
  obtain ⟨d, -, rfl⟩ := Option.map_eq_some_iff.mp harg
  refine ⟨hsources, ?_⟩
  have hindices := congrArg List.length (makeSources_indices hsources)
  rw [spentIndices, List.length_map, List.length_take, Nat.min_eq_left hlen] at hindices
  exact hindices

/-- No transaction is tried without inputs: it could not pay the fee. -/
theorem IsTry.pos (h : IsTry E r w outs selected b arg) : 0 < b := by
  obtain ⟨-, sources, hsources, hfee, -⟩ := h
  refine Nat.pos_of_ne_zero fun hb => ?_
  rw [hb, List.take_zero] at hsources
  cases hsources
  exact absurd hfee (UInt64.not_lt.mpr UInt64.zero_le)

end Tries

/-- A sweep whose transactions are made as above. -/
structure SweepMade (E : WalletEnv) (x : SpendEnv) (r : SweepRequest) (w : Wallet2) (size : ℕ → ℕ)
    (outs : List (List (UInt64 × PublicKey))) : Prop where
  inputs : BuildsInputs E x w
  sizes : SweepSizes E x r w size
  outs_eq : randomOuts x r.fakeOutsCount (sweepSelected x r w).length = some outs

/-- A transaction of `b` inputs fits. -/
def fits (size : ℕ → ℕ) (b : ℕ) : Bool := decide (size b < CURRENCY_MAX_TRANSACTION_BLOB_SIZE)

theorem fits_eq_true {size : ℕ → ℕ} {b : ℕ} :
    fits size b = true ↔ size b < CURRENCY_MAX_TRANSACTION_BLOB_SIZE := decide_eq_true_iff

theorem fits_eq_false {size : ℕ → ℕ} {b : ℕ} :
    fits size b = false ↔ CURRENCY_MAX_TRANSACTION_BLOB_SIZE ≤ size b := by
  rw [fits, decide_eq_false_iff_not, Nat.not_lt]

section Search

variable {E : WalletEnv} {x : SpendEnv} {r : SweepRequest} {w : Wallet2} {size : ℕ → ℕ}
  {outs : List (List (UInt64 × PublicKey))}

theorem IsTry.blobSize {n b : ℕ} {arg : CreateTxArg} {res : CreateTxRes}
    (hmade : SweepMade E x r w size outs) (h : IsTry E r w outs (sweepSelected x r w) b arg)
    (hres : x.constructTx n w.account arg = some res) : getObjectBlobsize res.tx = size b :=
  hmade.sizes.made outs n b _ arg res hmade.outs_eq (tryConstructTx_iff.mpr ⟨h, hres, rfl⟩)

theorem tryConstructTx_made {n b : ℕ} {arg : CreateTxArg} {res : CreateTxRes} {c : TryConstructResult}
    (hmade : SweepMade E x r w size outs)
    (h : tryConstructTx E x r w outs (sweepSelected x r w) n b = some (c, some (arg, res))) :
    IsTry E r w outs (sweepSelected x r w) b arg ∧ res.tx.vin.length = b ∧
      c = if fits size b then .ok else .tooManyOutputs := by
  obtain ⟨htry, hres, rfl⟩ := tryConstructTx_iff.mp h
  refine ⟨htry, ?_, ?_⟩
  · rw [hmade.inputs n arg res hres, List.length_map, htry.sources.2]
  · rw [htry.blobSize hmade hres]
    cases hfit : fits size b with
    | true => exact if_neg (Nat.not_le.mpr (fits_eq_true.mp hfit))
    | false => exact if_pos (fits_eq_false.mp hfit)

/-- The search of the sweep is the bisection: it ends with the transaction of the boundary, and the last
one made has as many inputs as were tried last. -/
theorem searchBoundary_bisects {fuel n low high n' : ℕ} {argOk arg : CreateTxArg}
    {last last' : CreateTxRes} (hmade : SweepMade E x r w size outs)
    (h : searchBoundary E x r w outs (sweepSelected x r w) fuel n low high argOk last =
      some (n', arg, last')) :
    let q := Bisection.search (fits size) fuel low high last.tx.vin.length
    last'.tx.vin.length = q.2 ∧
      (q.1 = low ∧ arg = argOk ∨ IsTry E r w outs (sweepSelected x r w) q.1 arg) := by
  induction fuel generalizing n low high argOk last with
  | zero =>
    cases h
    exact ⟨rfl, .inl ⟨rfl, rfl⟩⟩
  | succ fuel ih =>
    unfold searchBoundary at h
    unfold Bisection.search
    split_ifs at h ⊢ with hend hfit
    · cases h
      exact ⟨rfl, .inl ⟨rfl, rfl⟩⟩
    · split at h
      · next arg' res' hr =>
        obtain ⟨htry, hlen, -⟩ := tryConstructTx_made hmade hr
        obtain ⟨hlast, hq⟩ := ih h
        rw [hlen] at hlast hq
        refine ⟨hlast, ?_⟩
        rcases hq with ⟨hlow, rfl⟩ | hq
        · rw [hlow]
          exact .inr htry
        · exact .inr hq
      · next hr =>
        have hc := (tryConstructTx_made hmade hr).2.2
        rw [if_pos hfit] at hc
        cases hc
      · cases h
    · split at h
      · next hr =>
        have hc := (tryConstructTx_made hmade hr).2.2
        rw [if_neg hfit] at hc
        cases hc
      · next arg' res' hr =>
        obtain ⟨-, hlen, -⟩ := tryConstructTx_made hmade hr
        obtain ⟨hlast, hq⟩ := ih h
        rw [hlen] at hlast hq
        exact ⟨hlast, hq⟩
      · cases h

/-- What a sweep goes on with: its estimate when that fits, else what the search ends with. -/
theorem prepareSweep_made {found : List (ℕ × UInt64)} {n : ℕ} {arg : CreateTxArg} {last : CreateTxRes}
    (hinputs : BuildsInputs E x w) (hsizes : SweepSizes E x r w size)
    (h : prepareSweep E x r w = some (found, n, arg, last)) :
    ∃ outs, SweepMade E x r w size outs ∧
      let estimate := sweepEstimate x r w
      let q := Bisection.search (fits size) estimate 0 estimate estimate
      (fits size estimate = true ∧ last.tx.vin.length = estimate ∧
          IsTry E r w outs (sweepSelected x r w) estimate arg ∨
        fits size estimate = false ∧ 0 < estimate ∧ last.tx.vin.length = q.2 ∧
          (q.1 = 0 ∧ IsTry E r w outs (sweepSelected x r w) estimate arg ∨
            IsTry E r w outs (sweepSelected x r w) q.1 arg)) := by
  unfold prepareSweep at h
  obtain ⟨-, -, h⟩ := Option.bind_eq_some_iff.mp h
  obtain ⟨found', hfound, h⟩ := Option.bind_eq_some_iff.mp h
  obtain ⟨-, -, h⟩ := Option.bind_eq_some_iff.mp h
  obtain ⟨outs, houts, h⟩ := Option.bind_eq_some_iff.mp h
  have hselected : (found'.mergeSort fun a b => decide (b.2 ≤ a.2)).map Prod.fst = sweepSelected x r w := by
    unfold sweepSelected
    rw [hfound]
    rfl
  have hlen : found'.length = (sweepSelected x r w).length := by
    rw [← hselected, List.length_map, List.length_mergeSort]
  rw [hselected] at h
  rw [hlen] at houts
  have hmade : SweepMade E x r w size outs := ⟨hinputs, hsizes, houts⟩
  refine ⟨outs, hmade, ?_⟩
  change Option.bind (tryConstructTx E x r w outs (sweepSelected x r w) 0 (sweepEstimate x r w)) _ = _ at h
  obtain ⟨c, hfirst, h⟩ := Option.bind_eq_some_iff.mp h
  split at h
  · obtain ⟨htry, hvin, hc⟩ := tryConstructTx_made hmade hfirst
    cases h
    refine .inl ⟨?_, hvin, htry⟩
    by_contra hfit
    rw [if_neg hfit] at hc
    cases hc
  · obtain ⟨htry, hvin, hc⟩ := tryConstructTx_made hmade hfirst
    obtain ⟨p, hp, h⟩ := Option.map_eq_some_iff.mp h
    cases h
    obtain ⟨hlast, hq⟩ := searchBoundary_bisects hmade hp
    rw [hvin] at hlast hq
    refine .inr ⟨?_, htry.pos, hlast, ?_⟩
    · by_contra hfit
      rw [if_pos (by simpa using hfit)] at hc
      cases hc
    · rcases hq with ⟨hlow, rfl⟩ | hq
      · exact .inl ⟨hlow, htry⟩
      · exact .inr hq
  · cases h

theorem makeSource_spends {fakeOutsCount i : ℕ} {others : List (UInt64 × PublicKey)} {src : TxSourceEntry}
    (h : makeSource E w fakeOutsCount others i = some src) :
    SpendsTransfer E w i (inputFor E w.account src) := by
  unfold makeSource at h
  split at h
  · cases h
  · next td htd =>
    split at h
    · next amount otk hout =>
      cases h
      refine ⟨td, _, htd, rfl, ?_, rfl⟩
      unfold TransferDetails.amount
      rw [hout]
      rfl
    · cases h

theorem makeSources_spend {fakeOutsCount k : ℕ} {l : List ℕ} {sources : List TxSourceEntry}
    (h : makeSources E w fakeOutsCount outs k l = some sources) :
    List.Forall₂ (SpendsTransfer E w) l (sources.map (inputFor E w.account)) := by
  induction l generalizing k sources with
  | nil =>
    cases h
    exact .nil
  | cons i l ih =>
    obtain ⟨src, hsrc, h⟩ := Option.bind_eq_some_iff.mp h
    obtain ⟨rest, hrest, rfl⟩ := Option.map_eq_some_iff.mp h
    exact .cons (makeSource_spends hsrc) (ih hrest)

theorem SweepSizes.le (h : SweepSizes E x r w size) {i j : ℕ} (hi : 0 < i) (hij : i ≤ j)
    (hj : j ≤ sweepEstimate x r w) : size i ≤ size j := by
  induction j, hij using Nat.le_induction with
  | base => exact le_rfl
  | succ j hij ih => exact (ih (by omega)).trans (h.monotone j (by omega) (by omega))

/-- What the bisection comes to when the estimate does not fit. -/
theorem SweepSizes.search (h : SweepSizes E x r w size) (hpos : 0 < sweepEstimate x r w)
    (hfit : fits size (sweepEstimate x r w) = false) :
    let estimate := sweepEstimate x r w
    let q := Bisection.search (fits size) estimate 0 estimate estimate
    q.1 < estimate ∧ CURRENCY_MAX_TRANSACTION_BLOB_SIZE ≤ size (q.1 + 1) ∧
      (0 < q.1 → size q.1 < CURRENCY_MAX_TRANSACTION_BLOB_SIZE) ∧
      (0 < q.1 → q.2 = q.1 ∧ Bisection.TriedAfter estimate 0 estimate q.1 ∨
        q.2 = q.1 + 1 ∧ Bisection.TriedBefore estimate 0 estimate q.1) := by
  intro estimate q
  have hdown : ∀ i j, 0 < i → i ≤ j → j < estimate → fits size j = true → fits size i = true :=
    fun i j hi hij hj hj' =>
      fits_eq_true.mpr ((h.le hi hij (Nat.le_of_lt hj)).trans_lt (fits_eq_true.mp hj'))
  obtain ⟨k, -, hk, hfits⟩ := Bisection.exists_boundary hpos hdown
  obtain ⟨hend, hlast⟩ := @Bisection.search_spec (fits size) estimate 0 estimate estimate k
    (Nat.zero_le k) hk (by omega) hfits
  change q.1 = k at hend
  change q.2 = k ∧ _ ∨ q.2 = k + 1 ∧ _ ∨ _ at hlast
  rw [hend]
  refine ⟨hk, ?_, fun hpos => fits_eq_true.mp ((hfits k hpos hk).mpr le_rfl), fun hpos => ?_⟩
  · -- the next one does not fit, be it the estimate or below it
    rcases Nat.eq_or_lt_of_le hk with hk | hk
    · rw [Nat.succ_eq_add_one] at hk
      rw [hk]
      exact fits_eq_false.mp hfit
    · refine Nat.not_lt.mp fun hlt => ?_
      have := (hfits (k + 1) (Nat.succ_pos k) hk).mp (fits_eq_true.mpr hlt)
      omega
  · rcases hlast with hlast | hlast | ⟨hone, -⟩
    · exact .inl hlast
    · exact .inr hlast
    · omega

/-- The transaction that a sweep sends has the most inputs that fit, and the number told is the one tried
last. -/
theorem sweepBelow_sent {res : SweepResult} {w' : Wallet2} (hinputs : BuildsInputs E x w)
    (hsizes : SweepSizes E x r w size) (hview : w.isViewOnly = false)
    (h : sweepBelow E x r w = .ok (res, w')) :
    ∃ k tx, res.blob = .signed tx ∧
      List.Forall₂ (SpendsTransfer E w) ((sweepSelected x r w).take k) tx.vin ∧ tx.vin.length = k ∧
      getObjectBlobsize tx < CURRENCY_MAX_TRANSACTION_BLOB_SIZE ∧
      getObjectBlobsize tx = size k ∧
      (k = sweepEstimate x r w ∧ res.outsSwept = k ∨
        fits size (sweepEstimate x r w) = false ∧ k < sweepEstimate x r w ∧
          CURRENCY_MAX_TRANSACTION_BLOB_SIZE ≤ size (k + 1) ∧
          (res.outsSwept = k ∧ Bisection.TriedAfter (sweepEstimate x r w) 0 (sweepEstimate x r w) k ∨
            res.outsSwept = k + 1 ∧
              Bisection.TriedBefore (sweepEstimate x r w) 0 (sweepEstimate x r w) k)) := by
  unfold sweepBelow at h
  split at h
  · cases h
  · next found n arg last hprepare =>
    obtain ⟨outs, hmade, htries⟩ := prepareSweep_made hinputs hsizes hprepare
    dsimp only at h
    rw [hview, if_neg Bool.false_ne_true] at h
    split at h
    · cases h
    · next sent hsent =>
      cases hfinal : finalizeTransaction E x arg sent false w with
      | error w₁ =>
        rw [hfinal] at h
        cases h
      | ok w₁ =>
        rw [hfinal] at h
        cases h
        have hsmall : getObjectBlobsize sent.tx < CURRENCY_MAX_TRANSACTION_BLOB_SIZE := by
          unfold finalizeTransaction at hfinal
          split_ifs at hfinal with hcheck
          exact Nat.not_le.mp fun hbig => hcheck (.inl hbig)
        have htx : ∀ k, IsTry E r w outs (sweepSelected x r w) k arg →
            List.Forall₂ (SpendsTransfer E w) ((sweepSelected x r w).take k) sent.tx.vin ∧
              sent.tx.vin.length = k ∧ getObjectBlobsize sent.tx = size k := by
          intro k htry
          rw [hinputs n arg sent hsent, List.length_map]
          exact ⟨makeSources_spend htry.sources.1, htry.sources.2, htry.blobSize hmade hsent⟩
        rcases htries with ⟨-, hlast, htry⟩ | ⟨hfit, hpos, hlast, htries⟩
        · obtain ⟨hspends, hvin, hsize⟩ := htx _ htry
          exact ⟨_, sent.tx, rfl, hspends, hvin, hsmall, hsize, .inl ⟨rfl, hlast⟩⟩
        · obtain ⟨hlt, hnext, -, htold⟩ := hsizes.search hpos hfit
          rcases htries with ⟨-, htry⟩ | htry
          · -- nothing fits, and the estimate does not pass `finalize_transaction`
            rw [(htx _ htry).2.2] at hsmall
            exact absurd hsmall (Nat.not_lt.mpr (fits_eq_false.mp hfit))
          · obtain ⟨hspends, hvin, hsize⟩ := htx _ htry
            refine ⟨_, sent.tx, rfl, hspends, hvin, hsmall, hsize, .inr ⟨hfit, hlt, hnext, ?_⟩⟩
            rw [show SweepResult.outsSwept _ = last.tx.vin.length from rfl, hlast]
            exact htold htry.pos

end Search

section Exact

variable {E : WalletEnv} {x : SpendEnv} {r : SweepRequest} {w w' : Wallet2} {size : ℕ → ℕ} {res : SweepResult}

/-- Only one number of inputs fits while the next one does not. -/
theorem SweepSizes.unique (h : SweepSizes E x r w size) {j k : ℕ} (hj : j < sweepEstimate x r w)
    (hk : k < sweepEstimate x r w) (hjfits : size j < CURRENCY_MAX_TRANSACTION_BLOB_SIZE)
    (hjnext : CURRENCY_MAX_TRANSACTION_BLOB_SIZE ≤ size (j + 1))
    (hkfits : size k < CURRENCY_MAX_TRANSACTION_BLOB_SIZE)
    (hknext : CURRENCY_MAX_TRANSACTION_BLOB_SIZE ≤ size (k + 1)) : j = k := by
  rcases Nat.lt_trichotomy j k with hjk | hjk | hjk
  · have := h.le (Nat.succ_pos j) hjk (Nat.le_of_lt hk)
    rw [Nat.succ_eq_add_one] at this
    omega
  · exact hjk
  · have := h.le (Nat.succ_pos k) hjk (Nat.le_of_lt hj)
    rw [Nat.succ_eq_add_one] at this
    omega

/-- A sweep whose last try was one input too many tells one more than it sent. -/
theorem sweepBelow_inexact {k : ℕ} (hinputs : BuildsInputs E x w) (hsizes : SweepSizes E x r w size)
    (hview : w.isViewOnly = false) (h : sweepBelow E x r w = .ok (res, w'))
    (hk : size k < CURRENCY_MAX_TRANSACTION_BLOB_SIZE)
    (hnext : CURRENCY_MAX_TRANSACTION_BLOB_SIZE ≤ size (k + 1))
    (hbefore : Bisection.TriedBefore (sweepEstimate x r w) 0 (sweepEstimate x r w) k) :
    ¬SweepExact E x r w size res := by
  obtain ⟨j, tx, hblob, hspends, -, hsmall, hsize, htold⟩ := sweepBelow_sent hinputs hsizes hview h
  rw [hsize] at hsmall
  have hlt : k < sweepEstimate x r w := Nat.lt_of_succ_lt hbefore.1
  rcases htold with ⟨rfl, -⟩ | ⟨-, hj, hjnext, hswept⟩
  · have := hsizes.le (Nat.succ_pos k) hlt le_rfl
    rw [Nat.succ_eq_add_one] at this
    omega
  · obtain rfl := hsizes.unique hj hlt hsmall hjnext hk hnext
    rcases hswept with ⟨-, hafter⟩ | ⟨hswept, -⟩
    · exact absurd hbefore hafter.not_before
    · -- there is one position more than there are inputs
      rintro ⟨⟨tx', hblob', hspends', -⟩, -⟩
      rw [hblob] at hblob'
      cases hblob'
      have hlen := hspends'.length_eq
      have hmore := hspends.length_eq
      rw [List.length_take] at hlen hmore
      have hestimate : sweepEstimate x r w ≤ (sweepSelected x r w).length := Nat.min_le_left _ _
      omega

theorem sweepBelow_exact (hinputs : BuildsInputs E x w) (hsizes : SweepSizes E x r w size)
    (hview : w.isViewOnly = false) (h : sweepBelow E x r w = .ok (res, w'))
    (hlast : FitsLast size (sweepEstimate x r w)) : SweepExact E x r w size res := by
  obtain ⟨j, tx, hblob, hspends, -, hsmall, hsize, htold⟩ := sweepBelow_sent hinputs hsizes hview h
  rcases htold with ⟨hj, hswept⟩ | ⟨hfit, hj, hjnext, hswept⟩
  · rw [← hswept] at hspends hj
    exact ⟨⟨tx, hblob, hspends, hsmall⟩, .inl hj⟩
  · rw [hsize] at hsmall
    have hafter : res.outsSwept = j := by
      rcases hlast with hlast | ⟨k, hk, hkfits, hknext, hafter⟩
      · exact absurd hlast (Nat.not_lt.mpr (fits_eq_false.mp hfit))
      · obtain rfl := hsizes.unique hj hk hsmall hjnext hkfits hknext
        rcases hswept with ⟨hswept, -⟩ | ⟨-, hbefore⟩
        · exact hswept
        · exact absurd hbefore hafter.not_before
    rw [← hsize] at hsmall
    rw [← hafter] at hspends hjnext
    exact ⟨⟨tx, hblob, hspends, hsmall⟩, .inr hjnext⟩

/-- A sweep of a wallet that may spend meets its contract exactly when the largest number of inputs that
fits was tried last. -/
theorem sweepBelow_exact_iff (hinputs : BuildsInputs E x w) (hsizes : SweepSizes E x r w size)
    (hview : w.isViewOnly = false) (h : sweepBelow E x r w = .ok (res, w')) :
    SweepExact E x r w size res ↔ FitsLast size (sweepEstimate x r w) := by
  refine ⟨fun hexact => ?_, sweepBelow_exact hinputs hsizes hview h⟩
  obtain ⟨k, tx, -, -, -, hsmall, hsize, htold⟩ := sweepBelow_sent hinputs hsizes hview h
  rw [hsize] at hsmall
  rcases htold with ⟨rfl, -⟩ | ⟨-, hk, hnext, ⟨-, hafter⟩ | ⟨-, hbefore⟩⟩
  · exact .inl hsmall
  · exact .inr ⟨k, hk, hsmall, hnext, hafter⟩
  · exact absurd hexact (sweepBelow_inexact hinputs hsizes hview h hsmall hnext hbefore)

end Exact

section Complete

variable {E : WalletEnv} {x : SpendEnv} {r : SweepRequest} {w : Wallet2} {size : ℕ → ℕ}
  {outs : List (List (UInt64 × PublicKey))}

/-- A transaction of every number of inputs up to the estimate can be made. -/
def AllTried (E : WalletEnv) (x : SpendEnv) (r : SweepRequest) (w : Wallet2)
    (outs : List (List (UInt64 × PublicKey))) : Prop :=
  ∀ n b, 0 < b → b ≤ sweepEstimate x r w →
    ∃ arg res, IsTry E r w outs (sweepSelected x r w) b arg ∧ x.constructTx n w.account arg = some res

theorem searchBoundary_completes (hall : AllTried E x r w outs) {fuel n low high : ℕ}
    (hhigh : high ≤ sweepEstimate x r w) (argOk : CreateTxArg) (last : CreateTxRes) :
    ∃ p, searchBoundary E x r w outs (sweepSelected x r w) fuel n low high argOk last = some p := by
  induction fuel generalizing n low high argOk last with
  | zero => exact ⟨_, rfl⟩
  | succ fuel ih =>
    unfold searchBoundary
    split_ifs with hend
    · exact ⟨_, rfl⟩
    · obtain ⟨arg, res, htry, hres⟩ := hall n ((low + high) / 2) (by omega) (by omega)
      rw [tryConstructTx_iff.mpr ⟨htry, hres, rfl⟩]
      by_cases hbig : CURRENCY_MAX_TRANSACTION_BLOB_SIZE ≤ getObjectBlobsize res.tx
      · rw [if_pos hbig]
        exact ih (by omega) argOk res
      · rw [if_neg hbig]
        exact ih hhigh arg res

theorem prepareSweep_completes {found : List (ℕ × UInt64)} (hswap : r.addr.isSwapAddress = false)
    (hfound : w.collectSweep x.now r (List.range w.transfers.length) = some found)
    (houts : randomOuts x r.fakeOutsCount (sweepSelected x r w).length = some outs)
    (hpos : 0 < sweepEstimate x r w) (hall : AllTried E x r w outs) :
    ∃ n arg last, prepareSweep E x r w = some (found, n, arg, last) := by
  have hselected : (found.mergeSort fun a b => decide (b.2 ≤ a.2)).map Prod.fst = sweepSelected x r w := by
    unfold sweepSelected
    rw [hfound]
    rfl
  have hlen : found.length = (sweepSelected x r w).length := by
    rw [← hselected, List.length_map, List.length_mergeSort]
  have hsome : found ≠ [] := by
    rintro rfl
    rw [sweepEstimate, ← hlen] at hpos
    simp at hpos
  obtain ⟨arg, res, htry, hres⟩ := hall 0 (sweepEstimate x r w) hpos le_rfl
  have hfirst := tryConstructTx_iff.mpr ⟨htry, hres, rfl⟩
  unfold prepareSweep
  simp only [hswap, hfound, hsome, hlen, houts, hselected, guard_true, Option.bind_eq_bind,
    Option.bind_some, ne_eq, not_false_eq_true, Option.pure_def]
  change ∃ n arg last, Option.bind (tryConstructTx E x r w outs (sweepSelected x r w) 0
    (sweepEstimate x r w)) _ = _
  rw [hfirst, Option.bind_some]
  by_cases hbig : CURRENCY_MAX_TRANSACTION_BLOB_SIZE ≤ getObjectBlobsize res.tx
  · rw [if_pos hbig]
    obtain ⟨⟨n, arg', last⟩, hp⟩ := @searchBoundary_completes E x r w outs hall (sweepEstimate x r w) 1 0
      (sweepEstimate x r w) le_rfl arg res
    refine ⟨n, arg', last, ?_⟩
    change Option.map _ (searchBoundary E x r w outs (sweepSelected x r w) (sweepEstimate x r w) 1 0
      (sweepEstimate x r w) arg res) = _
    rw [hp]
    rfl
  · rw [if_neg hbig]
    exact ⟨_, _, _, rfl⟩

theorem IsTry.unique {selected : List ℕ} {b : ℕ} {arg arg' : CreateTxArg}
    (h : IsTry E r w outs selected b arg) (h' : IsTry E r w outs selected b arg') : arg = arg' := by
  obtain ⟨-, sources, hsources, -, harg⟩ := h
  obtain ⟨-, sources', hsources', -, harg'⟩ := h'
  rw [hsources] at hsources'
  cases hsources'
  exact Option.some.inj (harg.symm.trans harg')

theorem prepareSweep_fits {found : List (ℕ × UInt64)} {n : ℕ} {arg : CreateTxArg} {last : CreateTxRes}
    (hmade : SweepMade E x r w size outs) (hone : size 1 < CURRENCY_MAX_TRANSACTION_BLOB_SIZE)
    (h : prepareSweep E x r w = some (found, n, arg, last)) :
    ∃ k ≤ sweepEstimate x r w, IsTry E r w outs (sweepSelected x r w) k arg ∧
      size k < CURRENCY_MAX_TRANSACTION_BLOB_SIZE := by
  obtain ⟨outs', hmade', htries⟩ := prepareSweep_made hmade.inputs hmade.sizes h
  obtain rfl := Option.some.inj (hmade.outs_eq.symm.trans hmade'.outs_eq)
  rcases htries with ⟨hfit, -, htry⟩ | ⟨hfit, hpos, -, htries⟩
  · exact ⟨_, le_rfl, htry, fits_eq_true.mp hfit⟩
  · obtain ⟨hlt, hnext, hsmall, -⟩ := hmade.sizes.search hpos hfit
    rcases htries with ⟨hzero, -⟩ | htry
    · rw [hzero] at hnext
      exact absurd hone (Nat.not_lt.mpr hnext)
    · exact ⟨_, Nat.le_of_lt hlt, htry, hsmall htry.pos⟩

/-- A sweep that can make all it tries completes when one input fits and what fits can be sent. -/
theorem sweepBelow_completes {found : List (ℕ × UInt64)} (hswap : r.addr.isSwapAddress = false)
    (hfound : w.collectSweep x.now r (List.range w.transfers.length) = some found)
    (hmade : SweepMade E x r w size outs) (hview : w.isViewOnly = false)
    (hpos : 0 < sweepEstimate x r w) (hall : AllTried E x r w outs)
    (hone : size 1 < CURRENCY_MAX_TRANSACTION_BLOB_SIZE)
    (hfinal : ∀ b arg res, IsTry E r w outs (sweepSelected x r w) b arg →
      res.tx.vin = arg.sources.map (inputFor E w.account) →
      getObjectBlobsize res.tx < CURRENCY_MAX_TRANSACTION_BLOB_SIZE →
      ∃ w', finalizeTransaction E x arg res false w = .ok w') :
    ∃ res w', sweepBelow E x r w = .ok (res, w') := by
  obtain ⟨n, arg, last, hprepare⟩ := prepareSweep_completes hswap hfound hmade.outs_eq hpos hall
  obtain ⟨k, hk, htry, hsmall⟩ := prepareSweep_fits hmade hone hprepare
  obtain ⟨arg', sent, htry', hsent⟩ := hall n k htry.pos hk
  obtain rfl := htry.unique htry'
  rw [← htry.blobSize hmade hsent] at hsmall
  obtain ⟨w', hw'⟩ := hfinal k arg sent htry (hmade.inputs n arg sent hsent) hsmall
  unfold sweepBelow
  rw [hprepare]
  dsimp only
  rw [hview, if_neg Bool.false_ne_true, hsent]
  dsimp only
  rw [hw']
  exact ⟨_, _, rfl⟩

end Complete

/-- The outputs of `construct_tx` from the `o`-th on. -/
def sampleOutsFrom (key : PublicKey) (mixAttr : UInt8) : ℕ → List TxDestinationEntry → List TxOut
  | _, [] => []
  | o, d :: l =>
      ⟨d.amount, .toKey ⟨sampleOutKey ⟨d.addr.toAccountPublicAddress, 0⟩ key o, mixAttr⟩⟩ ::
        sampleOutsFrom key mixAttr (o + 1) l

/-- `construct_tx` with the keys and images of the sample wallet, the key of its `n`-th call being
`n + 9`. -/
def sampleConstruct (n : ℕ) (account : AccountBase) (arg : CreateTxArg) : Option CreateTxRes :=
  some
    { tx :=
        { version := 1
          unlockTime := arg.unlockTime
          vin := arg.sources.map (inputFor sampleWalletEnv account)
          vout := sampleOutsFrom (BitVec.ofNat 256 (n + 9)) arg.txOutsAttr 0
            (arg.splittedDsts.insertionSort fun a b => a.amount ≤ b.amount)
          extra := arg.extra ++ 1 :: hashBytes (BitVec.ofNat 256 (n + 9))
          signatures := arg.sources.map fun src => List.replicate src.outputs.length 0 }
      txkey := ⟨BitVec.ofNat 256 (n + 9), 0⟩
      outsKeyImages := [] }

/-- A transaction with 266 equal outputs to the sample account. -/
def samplePayout : Transaction :=
  sampleTx 3 [sampleIn 300000000000000000 5] ((List.range 266).map fun o =>
    ⟨1000000000000000, .toKey ⟨sampleOutKey sampleAccount.keys 3 o, 0⟩⟩)

/-- A wallet that has received them, at the global indexes from 1000 on. -/
def samplePaidOut : Wallet2 :=
  { sampleWallet false with
    blockchain := (List.range 20).map (BitVec.ofNat 256)
    transfers := (List.range 266).map fun o =>
      { blockHeight := 1, tx := samplePayout, internalOutputIndex := o
        globalOutputIndex := UInt64.ofNat (1000 + o), spent := false
        keyImage := sampleImage (sampleOutKey sampleAccount.keys 3 o) }
    keyImages := (List.range 266).foldl (fun images o =>
      images.set (sampleImage (sampleOutKey sampleAccount.keys 3 o)) o) ∅ }

def sampleSweepEnv : SpendEnv := { sampleSpendEnv with constructTx := sampleConstruct }

/-- Everything is swept, without other outputs in the rings. -/
def sampleSweepAll : SweepRequest where
  fakeOutsCount := 0
  addr := { spendPublicKey := 1, viewPublicKey := 2 }
  thresholdAmount := 18446744073709551615
  paymentId := []
  fee := 10000000000000

/-- The amounts of the outputs when `b` are swept. -/
def sampleDigits (b : ℕ) : List UInt64 :=
  (decomposeAmountIntoDigits (UInt64.ofNat (b * 1000000000000000) - sampleSweepAll.fee)
    DEFAULT_DUST_THRESHOLD).map AmountPart.amount

/-- The blob size of the transaction that sweeps `b` of them. -/
def sampleSize (b : ℕ) : ℕ :=
  109 * b + (writeVarint b).length + getVarintPackedSize b + (writeVarint (sampleDigits b).length).length +
    ((sampleDigits b).map fun a => (writeVarint a.toNat).length + 34).sum + 36

def sampleSource (i : ℕ) : TxSourceEntry where
  outputs := [(UInt64.ofNat (1000 + i), sampleOutKey sampleAccount.keys 3 i)]
  realOutput := 0
  realOutTxKey := 3
  realOutputInTxIndex := i
  amount := 1000000000000000
  transferIndex := i

/-- The zeros at the end of an amount are passed over. -/
theorem decomposeDigits_zeros {dustThreshold order : UInt64} {n m k : ℕ} (hm : m ≠ 0)
    (h : m * 10 ^ k < 2 ^ 64) :
    decomposeDigits dustThreshold (n + k) (UInt64.ofNat (m * 10 ^ k)) order 0 false =
      decomposeDigits dustThreshold n (UInt64.ofNat m) (order * UInt64.ofNat (10 ^ k)) 0 false := by
  induction k generalizing order with
  | zero => simp
  | succ k ih =>
    rw [pow_succ, ← Nat.mul_assoc] at h ⊢
    have hlt : m * 10 ^ k < 2 ^ 64 := by omega
    have hpos : 0 < m * 10 ^ k := Nat.mul_pos (Nat.pos_of_ne_zero hm) (Nat.pow_pos (by decide))
    have hamount : (UInt64.ofNat (m * 10 ^ k * 10)).toNat = m * 10 ^ k * 10 := by
      rw [UInt64.toNat_ofNat', Nat.mod_eq_of_lt h]
    have hdigit : UInt64.ofNat (m * 10 ^ k * 10) % 10 = 0 := by
      rw [← UInt64.toNat_inj, UInt64.toNat_mod, hamount]
      exact Nat.mul_mod_left _ _
    have hrest : UInt64.ofNat (m * 10 ^ k * 10) / 10 = UInt64.ofNat (m * 10 ^ k) := by
      rw [← UInt64.toNat_inj, UInt64.toNat_div, hamount, UInt64.toNat_ofNat', Nat.mod_eq_of_lt hlt]
      exact Nat.mul_div_cancel _ (by decide)
    have hne : UInt64.ofNat (m * 10 ^ k * 10) ≠ 0 := by
      intro hzero
      rw [hzero] at hamount
      exact absurd hamount (by rw [UInt64.toNat_zero]; omega)
    have horder : order * UInt64.ofNat (10 ^ k * 10) = order * 10 * UInt64.ofNat (10 ^ k) := by
      rw [Nat.mul_comm, UInt64.ofNat_mul, UInt64.mul_assoc]
      rfl
    rw [← Nat.add_assoc, decomposeDigits, if_neg hne, hdigit, hrest]
    dsimp only
    rw [UInt64.zero_mul, UInt64.add_zero, if_pos UInt64.zero_le, ih hlt, horder]

/-- What is left of the amount when the zeros at its end are passed over. -/
def sampleHead (b : ℕ) : List UInt64 :=
  (decomposeDigits DEFAULT_DUST_THRESHOLD 7 (UInt64.ofNat (100 * b - 1)) 10000000000000 0 false).map
    AmountPart.amount

theorem sampleDigits_eq {b : ℕ} (hpos : 0 < b) (hb : b ≤ 266) : sampleDigits b = sampleHead b := by
  have hvalue : UInt64.ofNat (b * 1000000000000000) - sampleSweepAll.fee =
      UInt64.ofNat ((100 * b - 1) * 10 ^ 13) := by
    have hle : 10000000000000 ≤ b * 1000000000000000 := by omega
    have hmoney : b * 1000000000000000 - 10000000000000 = (100 * b - 1) * 10 ^ 13 := by omega
    rw [← hmoney]
    exact (UInt64.ofNat_sub hle).symm
  unfold sampleDigits decomposeAmountIntoDigits
  rw [hvalue]
  refine congrArg (List.map AmountPart.amount) ?_
  refine (@decomposeDigits_zeros DEFAULT_DUST_THRESHOLD 1 7 (100 * b - 1) 13 (by omega) (by omega)).trans ?_
  rfl

/-- There are three to five outputs, two for a single input, with amounts of seven to nine bytes. -/
theorem sampleDigits_bounds {b : ℕ} (hpos : 0 < b) (hb : b ≤ 266) :
    2 ≤ (sampleDigits b).length ∧ (sampleDigits b).length ≤ 5 ∧ (1 < b → 3 ≤ (sampleDigits b).length) ∧
      ∀ a ∈ sampleDigits b, 128 ^ 6 ≤ a.toNat ∧ a.toNat < 128 ^ 9 := by
  have hhead : ∀ b < 267, 0 < b → 2 ≤ (sampleHead b).length ∧ (sampleHead b).length ≤ 5 ∧
      (1 < b → 3 ≤ (sampleHead b).length) ∧
        ∀ n ∈ (sampleHead b).map UInt64.toNat, 128 ^ 6 ≤ n ∧ n < 128 ^ 9 := by
    decide +kernel
  obtain ⟨hleast, hmost, hmore, hamounts⟩ := hhead b (Nat.lt_succ_of_le hb) hpos
  rw [sampleDigits_eq hpos hb]
  exact ⟨hleast, hmost, hmore, List.forall_mem_map.mp hamounts⟩

/-- The bytes of the amounts and keys of `l`, between 41 and 43 for each. -/
theorem outputs_bounds {l : List UInt64} (h : ∀ a ∈ l, 128 ^ 6 ≤ a.toNat ∧ a.toNat < 128 ^ 9) :
    41 * l.length ≤ (l.map fun a => (writeVarint a.toNat).length + 34).sum ∧
      (l.map fun a => (writeVarint a.toNat).length + 34).sum ≤ 43 * l.length := by
  induction l with
  | nil => exact ⟨le_rfl, le_rfl⟩
  | cons a l ih =>
    obtain ⟨⟨hlow, hhigh⟩, hrest⟩ := List.forall_mem_cons.mp h
    obtain ⟨hle, hge⟩ := ih hrest
    have hmost : (writeVarint a.toNat).length ≤ 9 :=
      (length_writeVarint_le_iff (by decide) (by decide)).mpr hhigh
    have hleast : ¬(writeVarint a.toNat).length ≤ 6 := fun h =>
      Nat.not_lt.mpr hlow ((length_writeVarint_le_iff (by decide) (by decide)).mp h)
    rw [List.map_cons, List.sum_cons, List.length_cons]
    omega

/-- One more input takes more bytes than the outputs can give back. -/
theorem sampleSize_monotone {b : ℕ} (hpos : 0 < b) (hb : b < 266) :
    sampleSize b ≤ sampleSize (b + 1) := by
  have hcount : ∀ n < 6, (writeVarint n).length = 1 := by decide
  have hgrows : (writeVarint b).length ≤ (writeVarint (b + 1)).length :=
    length_writeVarint_mono (Nat.le_succ b) (by omega)
  have hgrows' : getVarintPackedSize b ≤ getVarintPackedSize (b + 1) := by
    rw [getVarintPackedSize_of_lt (by omega), getVarintPackedSize_of_lt (by omega)]
    exact hgrows
  obtain ⟨h₁, h₂, h₃, hamounts⟩ := sampleDigits_bounds hpos hb.le
  obtain ⟨h₁', h₂', h₃', hamounts'⟩ := @sampleDigits_bounds (b + 1) (Nat.succ_pos b) hb
  have hsum := outputs_bounds hamounts
  have hsum' := outputs_bounds hamounts'
  have hthree : 3 ≤ (sampleDigits (b + 1)).length := h₃' (by omega)
  unfold sampleSize
  rw [hcount (sampleDigits b).length (by omega), hcount (sampleDigits (b + 1)).length (by omega)]
  omega

theorem samplePaidOut_length : samplePaidOut.transfers.length = 266 := by
  unfold samplePaidOut
  rw [List.length_map, List.length_range]

theorem samplePaidOut_transfer {i : ℕ} (hi : i < 266) :
    samplePaidOut.transfers[i]? = some
      { blockHeight := 1, tx := samplePayout, internalOutputIndex := i
        globalOutputIndex := UInt64.ofNat (1000 + i), spent := false
        keyImage := sampleImage (sampleOutKey sampleAccount.keys 3 i) } := by
  unfold samplePaidOut
  rw [List.getElem?_map, List.getElem?_range hi]
  rfl

theorem samplePayout_out {i : ℕ} (hi : i < 266) :
    samplePayout.vout[i]? = some ⟨1000000000000000, .toKey ⟨sampleOutKey sampleAccount.keys 3 i, 0⟩⟩ := by
  unfold samplePayout sampleTx
  rw [List.getElem?_map, List.getElem?_range hi]
  rfl

theorem samplePayout_txPubKey :
    ((parseAndValidateTxExtra sampleWalletEnv.toEnv samplePayout).map TxExtraInfo.txPubKey).getD nullPkey =
      3 := by
  have hextra : samplePayout.extra = 1 :: hashBytes 3 := rfl
  have hcoinbase : isCoinbase samplePayout = false := rfl
  unfold parseAndValidateTxExtra
  rw [hextra, hcoinbase]
  decide +kernel

theorem makeSource_sample {i : ℕ} (hi : i < 266) (others : List (UInt64 × PublicKey)) :
    makeSource sampleWalletEnv samplePaidOut 0 others i = some (sampleSource i) := by
  unfold makeSource
  rw [samplePaidOut_transfer hi]
  dsimp only
  rw [samplePayout_out hi]
  dsimp only
  rw [samplePayout_txPubKey]
  rfl

theorem makeSources_sample {l : List ℕ} (hl : ∀ i ∈ l, i < 266) (k : ℕ) :
    makeSources sampleWalletEnv samplePaidOut 0 [] k l = some (l.map sampleSource) := by
  induction l generalizing k with
  | nil => rfl
  | cons i l ih =>
    rw [List.forall_mem_cons] at hl
    unfold makeSources
    rw [makeSource_sample hl.1, Option.bind_some, ih hl.2]
    rfl

theorem collectSweep_sample {l : List ℕ} (hl : ∀ i ∈ l, i < 266) :
    collectSweep 0 samplePaidOut sampleSweepAll l = some (l.map fun i => (i, 1000000000000000)) := by
  have hspendable : ∀ i < 266, ((samplePaidOut.transfers[i]?).bind fun td => td.amount.bind fun _ =>
      samplePaidOut.spendableAmount 0 0 (fun a => decide (a < sampleSweepAll.thresholdAmount)) td) =
        some (some 1000000000000000) := by
    intro i hi
    rw [samplePaidOut_transfer hi, Option.bind_some]
    unfold TransferDetails.amount spendableAmount
    dsimp only
    rw [samplePayout_out hi]
    rfl
  induction l with
  | nil => rfl
  | cons i l ih =>
    rw [List.forall_mem_cons] at hl
    unfold collectSweep
    rw [show sampleSweepAll.fakeOutsCount = 0 from rfl, hspendable i hl.1]
    dsimp only
    rw [ih hl.2]
    rfl

/-- The transaction that sweeps the first `b`. -/
def sampleArgFor (b : ℕ) : CreateTxArg where
  spendPubKey := sampleAccount.keys.accountAddress.spendPublicKey
  sources := (List.range b).map sampleSource
  splittedDsts := (sampleDigits b).map fun a => ⟨a, sampleSweepAll.addr⟩
  extra := []
  unlockTime := 0
  txOutsAttr := 0
  changeAmount := 0
  recipients := [sampleSweepAll.addr]
  dust := 0

theorem sweepSelected_sample :
    sweepSelected sampleSweepEnv sampleSweepAll samplePaidOut = List.range 266 := by
  unfold sweepSelected
  rw [samplePaidOut_length, show sampleSweepEnv.now = 0 from rfl, collectSweep_sample fun i hi => List.mem_range.mp hi,
    Option.getD_some, List.mergeSort_of_pairwise, List.map_map]
  · exact List.map_id _
  · exact List.pairwise_map.mpr (List.pairwise_of_forall fun _ _ => rfl)

theorem sweepEstimate_sample : sweepEstimate sampleSweepEnv sampleSweepAll samplePaidOut = 266 := by
  unfold sweepEstimate
  rw [sweepSelected_sample, List.length_range]
  decide

/-- Amounts of one size add up to their multiple. -/
theorem foldl_add_const {α : Type} (c : ℕ) (l : List α) (m : ℕ) :
    (l.map fun _ => UInt64.ofNat c).foldl (· + ·) (UInt64.ofNat (m * c)) =
      UInt64.ofNat ((m + l.length) * c) := by
  induction l generalizing m with
  | nil => rfl
  | cons a l ih =>
    rw [List.map_cons, List.foldl_cons, ← UInt64.ofNat_add, ← Nat.succ_mul, ih, List.length_cons]
    congr 2
    omega

theorem sweepArg_eq (r : SweepRequest) (w : Wallet2) (sources : List TxSourceEntry) (amountSwept : UInt64) :
    sweepArg r w sources amountSwept = some
      { spendPubKey := w.account.keys.accountAddress.spendPublicKey, sources
        splittedDsts := (decomposeAmountIntoDigits (amountSwept - r.fee) DEFAULT_DUST_THRESHOLD).map
          fun p => ⟨p.amount, r.addr⟩
        extra := paymentIdExtra r.paymentId, unlockTime := 0, txOutsAttr := 0, changeAmount := 0
        recipients := [r.addr], dust := 0 } := by
  have hchange : decomposeAmountIntoDigits emptyDestination.amount DEFAULT_DUST_THRESHOLD = [] := by decide
  unfold sweepArg splitDestinations digitSplitStrategy
  dsimp only
  rw [hchange]
  simp

theorem isTry_sample {b : ℕ} (hpos : 0 < b) (hb : b ≤ 266) :
    IsTry sampleWalletEnv sampleSweepAll samplePaidOut [] (List.range 266) b (sampleArgFor b) := by
  have hfee : sampleSweepAll.fee < UInt64.ofNat (b * 1000000000000000) := by
    rw [UInt64.lt_iff_toNat_lt, UInt64.toNat_ofNat', Nat.mod_eq_of_lt (by omega)]
    change 10000000000000 < _
    omega
  have htake : (List.range 266).take b = List.range b := by
    rw [List.take_range, Nat.min_eq_left hb]
  have hsum : (((List.range b).map sampleSource).map TxSourceEntry.amount).foldl (· + ·) 0 =
      UInt64.ofNat (b * 1000000000000000) := by
    have := foldl_add_const 1000000000000000 (List.range b) 0
    rw [List.length_range, Nat.zero_add] at this
    rw [List.map_map]
    exact this
  refine ⟨by rw [List.length_range]; exact hb, (List.range b).map sampleSource, ?_, ?_, ?_⟩
  · rw [htake, show sampleSweepAll.fakeOutsCount = 0 from rfl]
    exact makeSources_sample (fun i hi => (List.mem_range.mp hi).trans_le hb) 0
  · rw [hsum]
    exact hfee
  · rw [hsum, sweepArg_eq]
    unfold sampleArgFor sampleDigits
    rw [List.map_map]
    rfl

theorem length_hashBytes_sweep (h : Hash) : (hashBytes h).length = 32 := by simp [hashBytes, podBytes]

theorem length_writeTxin_sample {account : AccountBase} {i : ℕ} (hi : i < 266) :
    (writeTxin (inputFor sampleWalletEnv account (sampleSource i))).length = 44 := by
  have hoffset : (writeVarint (UInt64.ofNat (1000 + i)).toNat).length = 2 := by
    rw [UInt64.toNat_ofNat', Nat.mod_eq_of_lt (by omega)]
    have hmost : (writeVarint (1000 + i)).length ≤ 2 :=
      (length_writeVarint_le_iff (by decide) (by decide)).mpr (by omega)
    have hleast : ¬(writeVarint (1000 + i)).length ≤ 1 := fun h =>
      absurd ((length_writeVarint_le_iff (by decide) (by decide)).mp h) (by omega)
    omega
  have hamount : (writeVarint (1000000000000000 : UInt64).toNat).length = 8 := by decide
  unfold inputFor writeTxin sampleSource writeVector
  simp only [List.map_cons, List.map_nil, absoluteOutputOffsetsToRelative_singleton, List.length_cons, List.length_append, hamount,
    List.flatMap_cons, List.flatMap_nil, List.length_nil, hoffset, length_hashBytes_sweep]
  rfl

theorem length_writeTxOut_sample (key : PublicKey) (mixAttr : UInt8) (o : ℕ)
    (dsts : List TxDestinationEntry) :
    (sampleOutsFrom key mixAttr o dsts).length = dsts.length ∧
      ((sampleOutsFrom key mixAttr o dsts).flatMap writeTxOut).length =
        (dsts.map fun d => (writeVarint d.amount.toNat).length + 34).sum := by
  induction dsts generalizing o with
  | nil => exact ⟨rfl, rfl⟩
  | cons d dsts ih =>
    obtain ⟨hlen, hsum⟩ := ih (o + 1)
    unfold sampleOutsFrom
    rw [List.length_cons, hlen, List.flatMap_cons, List.length_append, hsum, List.map_cons, List.sum_cons]
    refine ⟨rfl, ?_⟩
    congr 1
    unfold writeTxOut writeTxoutTarget
    rw [List.length_append, List.length_cons, List.length_append, length_hashBytes_sweep]
    rfl

theorem sum_range_const {f : ℕ → ℕ} {b c : ℕ} (h : ∀ i < b, f i = c) :
    ((List.range b).map f).sum = c * b := by
  rw [List.map_congr_left fun i hi => h i (List.mem_range.mp hi), List.map_const', List.sum_replicate_nat,
    List.length_range, Nat.mul_comm]

theorem blobsize_sample {n b : ℕ} {res : CreateTxRes}
    (h : sampleConstruct n samplePaidOut.account (sampleArgFor b) = some res) (hb : b ≤ 266) :
    getObjectBlobsize res.tx = sampleSize b := by
  cases h
  have hlt : ∀ i < b, i < 266 := fun i hi => hi.trans_le hb
  have hinputs : (((sampleArgFor b).sources.map (inputFor sampleWalletEnv samplePaidOut.account)).flatMap
      writeTxin).length = 44 * b := by
    rw [List.length_flatMap, sampleArgFor, List.map_map, List.map_map]
    exact sum_range_const fun i hi => length_writeTxin_sample (hlt i hi)
  have hsignatures : (((sampleArgFor b).sources.map (inputFor sampleWalletEnv samplePaidOut.account)).map
      fun i => 64 * getSignatureSize i + getVarintPackedSize (getSignatureSize i)).sum = 65 * b := by
    rw [sampleArgFor, List.map_map, List.map_map]
    refine sum_range_const fun i hi => ?_
    have hring : getSignatureSize (inputFor sampleWalletEnv samplePaidOut.account (sampleSource i)) = 1 :=
      congrArg List.length (absoluteOutputOffsetsToRelative_singleton _)
    dsimp only [Function.comp_apply]
    rw [hring]
    rfl
  have hsorted := List.perm_insertionSort (fun a b : TxDestinationEntry => a.amount ≤ b.amount)
    (sampleArgFor b).splittedDsts
  obtain ⟨hcount, houtputs⟩ := length_writeTxOut_sample (BitVec.ofNat 256 (n + 9))
    (sampleArgFor b).txOutsAttr 0
    ((sampleArgFor b).splittedDsts.insertionSort fun a b => a.amount ≤ b.amount)
  rw [hsorted.length_eq] at hcount
  rw [(hsorted.map _).sum_eq] at houtputs
  have hcoinbase : ∀ t : Transaction, t.vin = (sampleArgFor b).sources.map (inputFor sampleWalletEnv
      samplePaidOut.account) → isCoinbase t = false := by
    intro t ht
    unfold isCoinbase
    rw [ht]
    split
    · next height hgen =>
      have hmem : Txin.gen height ∈ [Txin.gen height] := List.mem_singleton_self _
      rw [← hgen] at hmem
      obtain ⟨src, -, hsrc⟩ := List.mem_map.mp hmem
      cases hsrc
    · rfl
  unfold getObjectBlobsize writeTransactionPrefix writeBlob writeVector sampleSize
  rw [if_neg (by rw [hcoinbase _ rfl]; exact Bool.false_ne_true)]
  simp only [List.length_append, hinputs, hsignatures, hcount, houtputs]
  have hvin : ((sampleArgFor b).sources.map (inputFor sampleWalletEnv samplePaidOut.account)).length = b := by
    rw [List.length_map, sampleArgFor, List.length_map, List.length_range]
  have hvout : (sampleArgFor b).splittedDsts.length = (sampleDigits b).length := List.length_map _
  have hamounts : (sampleArgFor b).splittedDsts.map (fun d => (writeVarint d.amount.toNat).length + 34) =
      (sampleDigits b).map fun a => (writeVarint a.toNat).length + 34 := List.map_map
  have hextra : ((sampleArgFor b).extra.length + (1 :: hashBytes (BitVec.ofNat 256 (n + 9))).length) = 33 := by
    rw [List.length_cons, length_hashBytes_sweep]
    rfl
  have hbytes : ((sampleArgFor b).extra ++ 1 :: hashBytes (BitVec.ofNat 256 (n + 9))).flatMap
      (fun c => [c]) = (sampleArgFor b).extra ++ 1 :: hashBytes (BitVec.ofNat 256 (n + 9)) :=
    List.flatMap_singleton' _
  rw [hvin, hvout, hamounts, hextra, hbytes, List.length_append, hextra,
    show (writeVarint (UInt64.toNat 1)).length = 1 from rfl,
    show (writeVarint (sampleArgFor b).unlockTime.toNat).length = 1 from rfl,
    show (writeVarint 33).length = 1 from rfl]
  omega

theorem sweepSizes_sample : SweepSizes sampleWalletEnv sampleSweepEnv sampleSweepAll samplePaidOut sampleSize where
  made outs n b c arg res houts h := by
    rw [sweepSelected_sample] at houts h
    cases houts
    obtain ⟨htry, hres, -⟩ := tryConstructTx_iff.mp h
    have hb : b ≤ 266 := by simpa using htry.1
    rw [htry.unique (isTry_sample htry.pos hb)] at hres
    exact blobsize_sample hres hb
  monotone b hpos hb := by
    rw [sweepEstimate_sample] at hb
    exact sampleSize_monotone hpos hb

theorem sweepMade_sample :
    SweepMade sampleWalletEnv sampleSweepEnv sampleSweepAll samplePaidOut sampleSize [] where
  inputs n arg res h := by
    cases h
    rfl
  sizes := sweepSizes_sample
  outs_eq := rfl

theorem matchesSources_sample (l : List ℕ) :
    matchesSources (l.map sampleSource)
      ((l.map sampleSource).map (inputFor sampleWalletEnv samplePaidOut.account)) = true := by
  induction l with
  | nil => rfl
  | cons i l ih =>
    rw [List.map_cons, List.map_cons, inputFor, matchesSources, ih, Bool.and_true]
    refine decide_eq_true ?_
    change _ = relativeOutputOffsetsToAbsolute (absoluteOutputOffsetsToRelative [UInt64.ofNat (1000 + i)])
    rw [absoluteOutputOffsetsToRelative_singleton]
    rfl

theorem finalizeTransaction_sample {b : ℕ} {res : CreateTxRes} (hb : b ≤ 266)
    (hvin : res.tx.vin = (sampleArgFor b).sources.map (inputFor sampleWalletEnv samplePaidOut.account))
    (hsmall : getObjectBlobsize res.tx < CURRENCY_MAX_TRANSACTION_BLOB_SIZE) :
    ∃ w', finalizeTransaction sampleWalletEnv sampleSweepEnv (sampleArgFor b) res false samplePaidOut =
      .ok w' := by
  have hcheck : ¬(CURRENCY_MAX_TRANSACTION_BLOB_SIZE ≤ getObjectBlobsize res.tx ∨
      (samplePaidOut.txKeys.get (getTransactionHash sampleWalletEnv.toEnv res.tx)).isSome ∨
      matchesSources (sampleArgFor b).sources res.tx.vin = false) := by
    rw [hvin, sampleArgFor, matchesSources_sample]
    rintro (hbig | hkey | hmatch)
    · omega
    · cases hkey
    · cases hmatch
  have hspent : spentIndices (sampleArgFor b).sources = List.range b := by
    rw [spentIndices, sampleArgFor, List.map_map]
    exact List.map_id _
  obtain ⟨w₁, hw₁, -⟩ := @setSpentFlags_ok samplePaidOut (List.range b) true fun i hi => by
    rw [samplePaidOut_length]
    exact (List.mem_range.mp hi).trans_le hb
  have hsame : Leaves (SameImages samplePaidOut) id (setSpentFlags true (List.range b) samplePaidOut) :=
    setSpentFlags_same .refl
  rw [hw₁, leaves_ok] at hsame
  unfold finalizeTransaction
  rw [if_neg hcheck, hspent]
  unfold relayTransaction
  rw [if_neg Bool.false_ne_true, show decide (sampleSweepEnv.sendRawTx.2 = .ok) = true from rfl, hw₁]
  dsimp only
  rw [if_pos (show sampleSweepEnv.sendRawTx = (true, .ok) from rfl)]
  dsimp only
  unfold learnKeyImages
  rw [if_neg]
  · exact ⟨_, rfl⟩
  · rw [show (recordSent _ _ _ _ w₁).isViewOnly = false from hsame.isViewOnly]
    exact Bool.false_ne_true

theorem sweepBelow_sample :
    ∃ res w', sweepBelow sampleWalletEnv sampleSweepEnv sampleSweepAll samplePaidOut = .ok (res, w') := by
  refine sweepBelow_completes rfl (collectSweep_sample ?_) sweepMade_sample rfl ?_ ?_ (by decide) ?_
  · rw [samplePaidOut_length]
    exact fun i hi => List.mem_range.mp hi
  · rw [sweepEstimate_sample]
    decide
  · intro n b hpos hb
    rw [sweepEstimate_sample] at hb
    rw [sweepSelected_sample]
    exact ⟨sampleArgFor b, _, isTry_sample hpos hb, rfl⟩
  · intro b arg res htry hvin hsmall
    rw [sweepSelected_sample] at htry
    have hb : b ≤ 266 := by simpa using htry.1
    obtain rfl := htry.unique (isTry_sample htry.pos hb)
    exact finalizeTransaction_sample hb hvin hsmall

/-- It meets its contract exactly when 261, the largest number of inputs that fits, is tried last. -/
theorem sweepBelow_exact_iff_sample :
    ∃ res w', ∃ sorted : List (ℕ × UInt64),
      sweepBelow sampleWalletEnv sampleSweepEnv sampleSweepAll samplePaidOut = .ok (res, w') ∧
      sweepSelected sampleSweepEnv sampleSweepAll samplePaidOut = sorted.map Prod.fst ∧
      (sorted.Pairwise fun a b => b.2 ≤ a.2) ∧
      (SweepExact sampleWalletEnv sampleSweepEnv sampleSweepAll samplePaidOut sampleSize res ↔
        FitsLast sampleSize (sweepEstimate sampleSweepEnv sampleSweepAll samplePaidOut)) := by
  obtain ⟨res, w', h⟩ := sweepBelow_sample
  obtain ⟨sorted, hselected, -, hdescending⟩ :=
    sweepSelected_spec sampleSweepEnv sampleSweepAll samplePaidOut (collectSweep_sample (by
      rw [samplePaidOut_length]
      exact fun i hi => List.mem_range.mp hi))
  exact ⟨res, w', sorted, h, hselected, hdescending,
    sweepBelow_exact_iff sweepMade_sample.inputs sweepSizes_sample rfl h⟩

/-- Its transaction takes 261 inputs, and it tells 262. -/
theorem sweep_tells_one_too_many :
    ∃ res w', sweepBelow sampleWalletEnv sampleSweepEnv sampleSweepAll samplePaidOut = .ok (res, w') ∧
      samplePaidOut.isViewOnly = false ∧
      BuildsInputs sampleWalletEnv sampleSweepEnv samplePaidOut ∧
      SweepSizes sampleWalletEnv sampleSweepEnv sampleSweepAll samplePaidOut sampleSize ∧
      ¬SweepExact sampleWalletEnv sampleSweepEnv sampleSweepAll samplePaidOut sampleSize res := by
  obtain ⟨res, w', h⟩ := sweepBelow_sample
  refine ⟨res, w', h, rfl, sweepMade_sample.inputs, sweepSizes_sample, ?_⟩
  have hfits : sampleSize 261 < CURRENCY_MAX_TRANSACTION_BLOB_SIZE ∧
      CURRENCY_MAX_TRANSACTION_BLOB_SIZE ≤ sampleSize 262 := by decide +kernel
  have hbefore : Bisection.TriedBefore 266 0 266 261 := by
    unfold Bisection.TriedBefore
    decide
  refine sweepBelow_inexact sweepMade_sample.inputs sweepSizes_sample rfl h hfits.1 hfits.2 ?_
  rw [sweepEstimate_sample]
  exact hbefore

end Wallet2

end Boolberry
