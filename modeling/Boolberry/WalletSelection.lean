import Mathlib.Data.List.Perm.Subperm
import Boolberry.WalletSpend

/-!
# What is selected for a spend

The positions that `select_transfers` and `sweep_below` choose are positions of unspent
transfers, and none is chosen more often than it was offered.
-/

namespace Boolberry
open KeyValue Aborting

namespace FreeAmounts

theorem indices_pushBack (amount : UInt64) (i : ℕ) (free : FreeAmounts) :
    (free.pushBack amount i).indices.Perm (i :: free.indices) := by
  induction free with
  | nil => exact .refl _
  | cons e free ih =>
    obtain ⟨a, l⟩ := e
    unfold pushBack
    split_ifs
    · exact .refl _
    · simp only [indices, List.flatMap_cons, List.append_assoc]
      exact List.perm_middle
    · simp only [indices, List.flatMap_cons] at ih ⊢
      exact (ih.append_left l).trans List.perm_middle

theorem lowerBound_mem {amount a : UInt64} {i : ℕ} {free : FreeAmounts}
    (h : free.lowerBound amount = some (a, i)) : i ∈ free.indices := by
  obtain ⟨e, he, h⟩ := Option.bind_eq_some_iff.mp h
  obtain ⟨j, hj, h⟩ := Option.map_eq_some_iff.mp h
  cases h
  exact List.mem_flatMap.mpr ⟨e, List.mem_of_find?_eq_some he, List.mem_of_getLast? hj⟩

theorem indices_popBack {free : FreeAmounts} {a : UInt64} {l : List ℕ} {i : ℕ}
    (h : free.getLast? = some (a, l)) (hi : l.getLast? = some i) :
    free.indices.Perm (i :: free.popBack.indices) := by
  have hfree : free = free.dropLast ++ [(a, l)] := (List.dropLast_append_getLast? _ h).symm
  have hl : l = l.dropLast ++ [i] := (List.dropLast_append_getLast? _ hi).symm
  have hpop : free.popBack.indices = free.dropLast.flatMap Prod.snd ++ l.dropLast := by
    unfold popBack indices
    rw [h]
    simp only [List.flatMap_append]
    congr 1
    split_ifs with hnil
    · rw [hnil]
      rfl
    · simp
  rw [hpop]
  conv_lhs => rw [hfree]
  simp only [indices, List.flatMap_append, List.flatMap_cons, List.flatMap_nil, List.append_nil]
  conv_lhs => rw [hl, ← List.append_assoc]
  exact List.perm_append_singleton _ _

end FreeAmounts

theorem selectIndicesGo_subperm (needed : UInt64) (n : ℕ) (free : FreeAmounts) (found : UInt64)
    (selected : List ℕ) :
    ∃ picks, (selectIndicesGo needed n free found selected).2 = selected ++ picks ∧
      picks.Subperm free.indices := by
  have hnone : ∃ picks, selected = selected ++ picks ∧ picks.Subperm free.indices :=
    ⟨[], by simp, List.nil_subperm⟩
  induction n generalizing free found selected with
  | zero => exact hnone
  | succ n ih =>
    unfold selectIndicesGo
    split_ifs
    · split
      · next a i hbound =>
        exact ⟨[i], rfl, List.singleton_subperm_iff.mpr (FreeAmounts.lowerBound_mem hbound)⟩
      · split
        · exact hnone
        · next a l hlast =>
          split
          · exact hnone
          · next i hi =>
            -- one position is taken off and the rest is picked among the others
            obtain ⟨picks, hpicks, hsub⟩ := ih free.popBack (found + a) (selected ++ [i])
              ⟨[], by simp, List.nil_subperm⟩
            refine ⟨i :: picks, by rw [hpicks, List.append_assoc]; rfl, ?_⟩
            exact ((List.subperm_cons i).mpr hsub).trans
              (FreeAmounts.indices_popBack hlast hi).symm.subperm
    · exact hnone

theorem FreeAmounts.popBack_full {free : FreeAmounts} (h : ∀ e ∈ free, e.2 ≠ []) :
    ∀ e ∈ free.popBack, e.2 ≠ [] := by
  unfold FreeAmounts.popBack
  split
  · exact fun e he => by cases he
  · intro e he
    rcases List.mem_append.mp he with he | he
    · exact h e (List.mem_of_mem_dropLast he)
    · split_ifs at he with hnil
      · cases he
      · rw [List.mem_singleton.mp he]
        exact hnil

/-- Every round but the last takes a position off, so the loop ends before its bound does. -/
theorem selectIndicesGo_bound {needed : UInt64} {n k : ℕ} {free : FreeAmounts} {found : UInt64}
    {selected : List ℕ} (hfull : ∀ e ∈ free, e.2 ≠ []) (hn : free.indices.length ≤ n) :
    selectIndicesGo needed (n + k) free found selected = selectIndicesGo needed n free found selected := by
  induction n generalizing free found selected with
  | zero =>
    -- nothing is free
    obtain rfl : free = [] := by
      cases free with
      | nil => rfl
      | cons e free =>
        have := List.length_pos_iff.mpr (hfull e (by simp))
        simp only [FreeAmounts.indices, List.flatMap_cons, List.length_append] at hn
        omega
    cases k with
    | zero => rfl
    | succ k =>
      rw [Nat.zero_add]
      unfold selectIndicesGo
      split_ifs
      · rfl
      · rfl
  | succ n ih =>
    rw [Nat.add_right_comm]
    unfold selectIndicesGo
    split_ifs
    · split
      · rfl
      · split
        · rfl
        · next a l hlast =>
          split
          · rfl
          · next i hi =>
            have := (FreeAmounts.indices_popBack hlast hi).length_eq
            rw [List.length_cons] at this
            exact ih (FreeAmounts.popBack_full hfull) (by omega)
    · rfl

theorem FreeAmounts.pushBack_full {amount : UInt64} {i : ℕ} {free : FreeAmounts}
    (h : ∀ e ∈ free, e.2 ≠ []) : ∀ e ∈ free.pushBack amount i, e.2 ≠ [] := by
  induction free with
  | nil => simp [pushBack]
  | cons e free ih =>
    obtain ⟨a, l⟩ := e
    unfold pushBack
    rw [List.forall_mem_cons] at h
    split_ifs
    · simpa using h
    · simpa using h.2
    · exact List.forall_mem_cons.mpr ⟨h.1, ih h.2⟩

namespace Wallet2

section Select

variable {w : Wallet2} {now fakeOutsCount : ℕ}

/-- Transfer `i` may be spent now. -/
def isSpendable (now fakeOutsCount : ℕ) (w : Wallet2) (i : ℕ) : Bool :=
  (((w.transfers[i]?).bind (w.spendableAmount now fakeOutsCount fun _ => true)).bind id).isSome

/-- The position is one of a transfer that is not spent. -/
def IsFree (w : Wallet2) (i : ℕ) : Prop := ∃ td, w.transfers[i]? = some td ∧ td.spent = false

theorem spendableAmount_free {below : UInt64 → Bool} {td : TransferDetails} {amount : UInt64}
    (h : w.spendableAmount now fakeOutsCount below td = some (some amount)) : td.spent = false := by
  unfold spendableAmount at h
  split_ifs at h with hs
  · cases h
  · simp only [Bool.or_eq_true, not_or, Bool.not_eq_true] at hs
    exact hs.1

theorem isSpendable_free {i : ℕ} (h : isSpendable now fakeOutsCount w i = true) : w.IsFree i := by
  obtain ⟨amount, h⟩ := Option.isSome_iff_exists.mp h
  obtain ⟨a, h, ha⟩ := Option.bind_eq_some_iff.mp h
  obtain ⟨td, htd, h⟩ := Option.bind_eq_some_iff.mp h
  rw [show a = some amount from ha] at h
  exact ⟨td, htd, spendableAmount_free h⟩

/-- What is collected: the positions that may be spent, each as often as it is offered. -/
theorem collectFree_indices {l : List ℕ} {free free' : FreeAmounts}
    (h : collectFree now w fakeOutsCount l free = some free') :
    free'.indices.Perm (free.indices ++ l.filter (isSpendable now fakeOutsCount w)) := by
  induction l generalizing free with
  | nil =>
    cases h
    simp
  | cons i l ih =>
    unfold collectFree at h
    split at h
    · cases h
    · next hi =>
      rw [List.filter_cons_of_neg (by simp [isSpendable, hi])]
      exact ih h
    · next amount hi =>
      rw [List.filter_cons_of_pos (by simp [isSpendable, hi])]
      refine (ih h).trans ?_
      refine ((FreeAmounts.indices_pushBack amount i free).append_right _).trans ?_
      exact List.perm_middle.symm

theorem collectFree_full {l : List ℕ} {free free' : FreeAmounts} (hfull : ∀ e ∈ free, e.2 ≠ [])
    (h : collectFree now w fakeOutsCount l free = some free') : ∀ e ∈ free', e.2 ≠ [] := by
  induction l generalizing free with
  | nil =>
    cases h
    exact hfull
  | cons i l ih =>
    unfold collectFree at h
    split at h
    · cases h
    · exact ih hfull h
    · exact ih (FreeAmounts.pushBack_full hfull) h

/-- The positions that may be spent are offered once each. -/
def OfferedOnce (now fakeOutsCount : ℕ) (outsToSpend : List ℕ) (w : Wallet2) : Prop :=
  (outsToSpend.filter (isSpendable now fakeOutsCount w)).Nodup

theorem selectTransfers_spec {needed found : UInt64} {outsToSpend selected : List ℕ}
    (h : selectTransfers now needed fakeOutsCount outsToSpend w = some (found, selected)) :
    (∀ i ∈ selected, w.IsFree i) ∧
      (OfferedOnce now fakeOutsCount outsToSpend w → selected.Nodup) := by
  obtain ⟨l, hl, h⟩ := Option.bind_eq_some_iff.mp h
  obtain ⟨free, hfree, h⟩ := Option.map_eq_some_iff.mp h
  have hperm := collectFree_indices hfree
  change free.indices.Perm ([] ++ _) at hperm
  rw [List.nil_append] at hperm
  obtain ⟨picks, hpicks, hsub⟩ := selectIndicesGo_subperm needed free.indices.length free 0 []
  have hselected : selected = picks := by
    rw [show selected = (selectIndicesForTransfer free needed).2 by rw [h]]
    exact hpicks
  have hsub' := hsub.trans hperm.subperm
  rw [← hselected] at hsub'
  refine ⟨fun i hi => isSpendable_free (List.of_mem_filter (hsub'.subset hi)), fun honce => ?_⟩
  obtain ⟨l', hl', hsubl⟩ := hsub'
  refine hl'.nodup_iff.mp (hsubl.nodup ?_)
  unfold allowedIndices at hl
  split_ifs at hl
  · -- everything is offered
    rw [← Option.some.inj hl]
    exact List.nodup_range.filter _
  · rw [← Option.some.inj hl]
    exact honce

theorem makeSources_indices {E : WalletEnv} {outs : List (List (UInt64 × PublicKey))} {k : ℕ} {l : List ℕ}
    {sources : List TxSourceEntry} (h : makeSources E w fakeOutsCount outs k l = some sources) :
    spentIndices sources = l := by
  induction l generalizing k sources with
  | nil =>
    cases h
    rfl
  | cons i l ih =>
    obtain ⟨src, hsrc, h⟩ := Option.bind_eq_some_iff.mp h
    obtain ⟨rest, hrest, rfl⟩ := Option.map_eq_some_iff.mp h
    have hi : src.transferIndex = i := by
      unfold makeSource at hsrc
      split at hsrc
      · cases hsrc
      · split at hsrc
        · cases hsrc
          rfl
        · cases hsrc
    rw [spentIndices, List.map_cons, hi]
    exact congrArg _ (ih hrest)

theorem prepareTransfer_spec {E : WalletEnv} {x : SpendEnv} {r : TransferRequest} {selected : List ℕ}
    {arg : CreateTxArg} (h : prepareTransfer E x r w = some (selected, arg)) :
    spentIndices arg.sources = selected ∧ (∀ i ∈ selected, w.IsFree i) ∧
      (OfferedOnce x.now r.fakeOutputsCount r.outsToSpend w → selected.Nodup) := by
  unfold prepareTransfer at h
  obtain ⟨-, -, h⟩ := Option.bind_eq_some_iff.mp h
  obtain ⟨needed, -, h⟩ := Option.bind_eq_some_iff.mp h
  obtain ⟨⟨found, sel⟩, hselect, h⟩ := Option.bind_eq_some_iff.mp h
  obtain ⟨-, -, h⟩ := Option.bind_eq_some_iff.mp h
  obtain ⟨outs, -, h⟩ := Option.bind_eq_some_iff.mp h
  obtain ⟨sources, hsources, h⟩ := Option.bind_eq_some_iff.mp h
  obtain ⟨⟨splittedDsts, dust⟩, -, h⟩ := Option.bind_eq_some_iff.mp h
  cases h
  exact ⟨makeSources_indices hsources, selectTransfers_spec hselect⟩

theorem collectSweep_spec {r : SweepRequest} {l : List ℕ} {found : List (ℕ × UInt64)}
    (h : collectSweep now w r l = some found) :
    (found.map Prod.fst).Sublist l ∧ ∀ p ∈ found, w.IsFree p.1 := by
  induction l generalizing found with
  | nil =>
    cases h
    exact ⟨.slnil, by simp⟩
  | cons i l ih =>
    unfold collectSweep at h
    split at h
    · cases h
    · obtain ⟨hsub, hfree⟩ := ih h
      exact ⟨hsub.cons _, hfree⟩
    · next amount hi =>
      obtain ⟨rest, hrest, rfl⟩ := Option.map_eq_some_iff.mp h
      obtain ⟨hsub, hfree⟩ := ih hrest
      obtain ⟨td, htd, hi⟩ := Option.bind_eq_some_iff.mp hi
      obtain ⟨-, -, hi⟩ := Option.bind_eq_some_iff.mp hi
      exact ⟨hsub.cons_cons _, List.forall_mem_cons.mpr ⟨⟨td, htd, spendableAmount_free hi⟩, hfree⟩⟩

/-- A transaction tried has the sources of the first positions. -/
theorem tryConstructTx_sources {E : WalletEnv} {x : SpendEnv} {r : SweepRequest}
    {outs : List (List (UInt64 × PublicKey))} {selected : List ℕ} {n bound : ℕ} {c : TryConstructResult}
    {arg : CreateTxArg} {res : CreateTxRes}
    (h : tryConstructTx E x r w outs selected n bound = some (c, some (arg, res))) :
    makeSources E w r.fakeOutsCount outs 0 (selected.take bound) = some arg.sources := by
  unfold tryConstructTx at h
  split_ifs at h
  obtain ⟨sources, hsources, h⟩ := Option.bind_eq_some_iff.mp h
  simp only at h
  split_ifs at h
  · cases h
  · obtain ⟨arg', harg, h⟩ := Option.map_eq_some_iff.mp h
    obtain ⟨d, -, rfl⟩ := Option.map_eq_some_iff.mp harg
    split at h
    · cases h
    · cases h
      exact hsources

/-- The search ends with a transaction that was tried, or with the one it began with. -/
theorem searchBoundary_tried {E : WalletEnv} {x : SpendEnv} {r : SweepRequest}
    {outs : List (List (UInt64 × PublicKey))} {selected : List ℕ} {bound : ℕ} {P : CreateTxArg → Prop}
    (htry : ∀ n b c arg res, b ≤ bound →
      tryConstructTx E x r w outs selected n b = some (c, some (arg, res)) → P arg)
    {fuel n low high n' : ℕ} {argOk arg : CreateTxArg} {last last' : CreateTxRes} (hhigh : high ≤ bound)
    (hok : P argOk)
    (h : searchBoundary E x r w outs selected fuel n low high argOk last = some (n', arg, last')) :
    P arg := by
  induction fuel generalizing n low high argOk last with
  | zero =>
    cases h
    exact hok
  | succ fuel ih =>
    unfold searchBoundary at h
    split_ifs at h
    · cases h
      exact hok
    · split at h
      · next hr => exact ih hhigh (htry _ _ _ _ _ (by omega) hr) h
      · exact ih (by omega) hok h
      · cases h

theorem prepareSweep_cases {E : WalletEnv} {x : SpendEnv} {r : SweepRequest} {found : List (ℕ × UInt64)}
    {n : ℕ} {arg : CreateTxArg} {last : CreateTxRes}
    (h : prepareSweep E x r w = some (found, n, arg, last)) :
    ∃ outs, r.addr.isSwapAddress = false ∧ found ≠ [] ∧
      w.collectSweep x.now r (List.range w.transfers.length) = some found ∧
      randomOuts x r.fakeOutsCount found.length = some outs ∧
      let selected := (found.mergeSort fun a b => decide (b.2 ≤ a.2)).map Prod.fst
      let bound := min selected.length (CURRENCY_MAX_TRANSACTION_BLOB_SIZE / (108 * (r.fakeOutsCount + 1)))
      (∃ first, makeSources E w r.fakeOutsCount outs 0 (selected.take bound) = some first) ∧
      ∃ b ≤ bound, makeSources E w r.fakeOutsCount outs 0 (selected.take b) = some arg.sources := by
  unfold prepareSweep at h
  obtain ⟨_, hswap, h⟩ := Option.bind_eq_some_iff.mp h
  obtain ⟨found', hfound, h⟩ := Option.bind_eq_some_iff.mp h
  obtain ⟨_, hsome, h⟩ := Option.bind_eq_some_iff.mp h
  obtain ⟨outs, houts, h⟩ := Option.bind_eq_some_iff.mp h
  obtain ⟨r₁, hfirst, h⟩ := Option.bind_eq_some_iff.mp h
  have htried : found' = found ∧ ∃ first, makeSources E w r.fakeOutsCount outs 0
      (((found'.mergeSort fun a b => decide (b.2 ≤ a.2)).map Prod.fst).take
        (min ((found'.mergeSort fun a b => decide (b.2 ≤ a.2)).map Prod.fst).length
          (CURRENCY_MAX_TRANSACTION_BLOB_SIZE / (108 * (r.fakeOutsCount + 1))))) = some first ∧
      ∃ b ≤ min ((found'.mergeSort fun a b => decide (b.2 ≤ a.2)).map Prod.fst).length
          (CURRENCY_MAX_TRANSACTION_BLOB_SIZE / (108 * (r.fakeOutsCount + 1))),
        makeSources E w r.fakeOutsCount outs 0
          (((found'.mergeSort fun a b => decide (b.2 ≤ a.2)).map Prod.fst).take b) = some arg.sources := by
    split at h
    · cases h
      have hsources := tryConstructTx_sources hfirst
      exact ⟨rfl, _, hsources, _, le_rfl, hsources⟩
    · obtain ⟨p, hp, h⟩ := Option.map_eq_some_iff.mp h
      cases h
      have hsources := tryConstructTx_sources hfirst
      refine ⟨rfl, _, hsources, searchBoundary_tried (P := fun arg => ∃ b ≤ _, makeSources E w
        r.fakeOutsCount outs 0 (List.take b _) = some arg.sources) ?_ le_rfl ⟨_, le_rfl, hsources⟩ hp⟩
      exact fun n b c arg res hb htry => ⟨b, hb, tryConstructTx_sources htry⟩
    · cases h
  obtain ⟨rfl, first, hfirst, hlast⟩ := htried
  exact ⟨outs, (Option.guard_eq_some' _).mp hswap, (Option.guard_eq_some' _).mp hsome, hfound, houts,
    ⟨first, hfirst⟩, hlast⟩

theorem prepareSweep_spec {E : WalletEnv} {x : SpendEnv} {r : SweepRequest} {found : List (ℕ × UInt64)}
    {n : ℕ} {arg : CreateTxArg} {last : CreateTxRes}
    (h : prepareSweep E x r w = some (found, n, arg, last)) :
    (∀ i ∈ spentIndices arg.sources, w.IsFree i) ∧ (spentIndices arg.sources).Nodup := by
  obtain ⟨outs, -, -, hfound, -, -, b, -, hlast⟩ := prepareSweep_cases h
  obtain ⟨hsub, hfree⟩ := collectSweep_spec hfound
  have hperm := (List.mergeSort_perm found fun a b => decide (b.2 ≤ a.2)).map Prod.fst
  rw [makeSources_indices hlast]
  refine ⟨fun i hi => ?_, ?_⟩
  · obtain ⟨p, hp, rfl⟩ := List.mem_map.mp (hperm.subset (List.mem_of_mem_take hi))
    exact hfree p hp
  · exact (List.take_sublist b _).nodup (hperm.nodup_iff.mpr (hsub.nodup List.nodup_range))

end Select

end Wallet2

end Boolberry
