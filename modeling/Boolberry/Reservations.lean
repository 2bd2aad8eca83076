import Boolberry.KeyImages
import Boolberry.WalletSelection

/-!
# Reserved outputs

An output of the wallet is reserved for a transaction by its spent flag. The ledger kept
here beside the wallet has every transaction that was made, and what became of it: no two
that still stand spend the same output, as long as the calls that clear flags and the ones
that set none are used with care.
-/

namespace Boolberry
open KeyValue Aborting

namespace Wallet2

/-- What became of a transaction: made, taken by the daemon, or cancelled or rejected. -/
inductive SpendStatus where
  | made
  | taken
  | dropped
deriving DecidableEq, Repr

/-- A transaction that was made, signed or not. -/
structure CreatedSpend where
  arg : CreateTxArg
  status : SpendStatus
deriving DecidableEq, Repr

/-- The positions of the transfers it spends. -/
def CreatedSpend.sources (s : CreatedSpend) : List ℕ := spentIndices s.arg.sources

/-- Neither cancelled nor rejected. -/
def CreatedSpend.Stands (s : CreatedSpend) : Prop := s.status ≠ .dropped

/-- The daemon takes it. -/
def SpendStatus.take : SpendStatus → SpendStatus
  | .made => .taken
  | c => c

/-- The daemon rejects it; a transaction it took before stays taken. -/
def SpendStatus.reject : SpendStatus → SpendStatus
  | .made => .dropped
  | c => c

def SpendStatus.cancel (_ : SpendStatus) : SpendStatus := .dropped

/-- The transactions with the sources and outputs `arg` change their status. -/
def settle (arg : CreateTxArg) (f : SpendStatus → SpendStatus) (spends : List CreatedSpend) :
    List CreatedSpend :=
  spends.map fun s => if s.arg = arg then { s with status := f s.status } else s

/-- The daemon answered that it does not take the transaction. -/
def IsRejected (x : SpendEnv) : Prop :=
  x.sendRawTx.1 = true ∧ x.sendRawTx.2 ≠ .ok ∧ x.sendRawTx.2 ≠ .busy

instance (x : SpendEnv) : Decidable (IsRejected x) := inferInstanceAs (Decidable (_ ∧ _ ∧ _))

/-- The daemon took or rejected it. -/
def IsAnswered (x : SpendEnv) : Prop := x.sendRawTx.2 = .ok ∨ IsRejected x

/-- The checks of `finalize_transaction` before it sends. -/
def Sendable (E : WalletEnv) (arg : CreateTxArg) (res : CreateTxRes) (w : Wallet2) : Prop :=
  ¬(CURRENCY_MAX_TRANSACTION_BLOB_SIZE ≤ getObjectBlobsize res.tx ∨
    (w.txKeys.get (getTransactionHash E.toEnv res.tx)).isSome ∨
    matchesSources arg.sources res.tx.vin = false)

instance (E : WalletEnv) (arg : CreateTxArg) (res : CreateTxRes) (w : Wallet2) :
    Decidable (Sendable E arg res w) := inferInstanceAs (Decidable (¬_))

/-- The entry of a transaction made and signed here. -/
def sentSpend (E : WalletEnv) (x : SpendEnv) (arg : CreateTxArg) (res : CreateTxRes) (doNotRelay : Bool)
    (w : Wallet2) : List CreatedSpend :=
  if Sendable E arg res w then
    [⟨arg, if doNotRelay then .made
      else if x.sendRawTx.2 = .ok then .taken else if IsRejected x then .dropped else .made⟩]
  else []

/-- The ledger after a call. -/
def record (E : WalletEnv) (w : Wallet2) (spends : List CreatedSpend) :
    WalletCall → List CreatedSpend
  | .pullBlocks _ => spends
  | .transfer x r =>
      match w.prepareTransfer E x r with
      | none => spends
      | some (_, arg) =>
          if w.isViewOnly then spends ++ [⟨arg, .made⟩]
          else
            match x.constructTx 0 w.account arg with
            | none => spends
            | some res => spends ++ sentSpend E x arg res r.doNotRelay w
  | .sweepBelow x r =>
      match w.prepareSweep E x r with
      | none => spends
      | some (_, n, arg, _) =>
          if w.isViewOnly then spends ++ [⟨arg, .made⟩]
          else
            match x.constructTx n w.account arg with
            | none => spends
            | some res => spends ++ sentSpend E x arg res false w
  | .submitTransfer x (some arg) (some res) =>
      if Sendable E arg res w then
        if x.sendRawTx.2 = .ok then settle arg .take spends
        else if IsRejected x then settle arg .reject spends else spends
      else spends
  | .submitTransfer _ _ _ => spends
  | .cancelTransfer (some arg) =>
      if (w.cancelTransfer (some arg)).isOk then settle arg .cancel spends else spends
  | .cancelTransfer none => spends

/-- A run of calls on a wallet and its ledger. -/
def runLedger (E : WalletEnv) (calls : List WalletCall) (s : Wallet2 × List CreatedSpend) :
    Wallet2 × List CreatedSpend :=
  calls.foldl (fun s call => (call.run E s.1, record E s.1 s.2 call)) s

/-- Within a transaction the positions differ, and two that stand share none. -/
structure Reserved (spends : List CreatedSpend) : Prop where
  nodup : ∀ s ∈ spends, s.sources.Nodup
  disjoint : spends.Pairwise fun s s' => s.Stands → s'.Stands → s.sources.Disjoint s'.sources

/-- What a call must not do: offer an output twice, leave a transaction unmarked or unanswered, or clear
the flags of a transaction that stands and is not the one cancelled or rejected. -/
def KeepsReserved (E : WalletEnv) (w : Wallet2) (spends : List CreatedSpend) : WalletCall → Prop
  | .pullBlocks _ => False
  | .transfer x r => w.OfferedOnce x.now r.fakeOutputsCount r.outsToSpend ∧
      (w.isViewOnly = false → r.doNotRelay = false → IsAnswered x)
  | .sweepBelow x _ => w.isViewOnly = false ∧ IsAnswered x
  | .submitTransfer x (some arg) (some res) => Sendable E arg res w → x.sendRawTx.2 ≠ .ok →
      ∀ s ∈ spends, s.Stands → ¬s.sources.Disjoint (spentIndices arg.sources) →
        s.arg = arg ∧ s.status = .made ∧ IsRejected x
  | .submitTransfer _ _ _ => True
  | .cancelTransfer (some arg) => ∀ s ∈ spends, s.Stands →
      ¬s.sources.Disjoint (spentIndices arg.sources) → s.arg = arg
  | .cancelTransfer none => True

/-- Every call meets the condition where it is made. -/
def ReservedRun (E : WalletEnv) : List WalletCall → Wallet2 × List CreatedSpend → Prop
  | [], _ => True
  | call :: l, s => KeepsReserved E s.1 s.2 call ∧
      ReservedRun E l (call.run E s.1, record E s.1 s.2 call)

theorem ReservedRun.cons {E : WalletEnv} {w : Wallet2} {spends : List CreatedSpend} {call : WalletCall}
    {l : List WalletCall} (h : KeepsReserved E w spends call)
    (hl : ReservedRun E l (call.run E w, record E w spends call)) :
    ReservedRun E (call :: l) (w, spends) := ⟨h, hl⟩

/-- The spent flag of transfer `i`. -/
def flag (w : Wallet2) (i : ℕ) : Bool := (w.transfers[i]?).any TransferDetails.spent

theorem IsFree.flag {w : Wallet2} {i : ℕ} (h : w.IsFree i) : w.flag i = false := by
  obtain ⟨td, htd, hs⟩ := h
  rw [Wallet2.flag, htd, Option.any_some, hs]

theorem IsFree.lt {w : Wallet2} {i : ℕ} (h : w.IsFree i) : i < w.transfers.length := by
  obtain ⟨td, htd, -⟩ := h
  exact (List.getElem?_eq_some_iff.mp htd).1

section Flags

variable {w₀ w w' : Wallet2}

theorem lt_of_flag {i : ℕ} (h : w.flag i = true) : i < w.transfers.length := by
  unfold flag at h
  by_contra hlt
  rw [List.getElem?_eq_none (Nat.le_of_not_lt hlt)] at h
  cases h

theorem flag_modify (i : ℕ) (spentFlag : Bool) (j : ℕ) :
    flag { w with transfers := w.transfers.modify i fun td => { td with spent := spentFlag } } j =
      if i = j then (decide (j < w.transfers.length) && spentFlag) else w.flag j := by
  unfold flag
  simp only [List.getElem?_modify]
  cases hj : w.transfers[j]? with
  | none =>
    have := List.getElem?_eq_none_iff.mp hj
    split_ifs
    · rw [decide_eq_false (by omega)]
      rfl
    · rfl
  | some td =>
    have := (List.getElem?_eq_some_iff.mp hj).1
    split_ifs
    · rw [decide_eq_true this]
      rfl
    · rfl

/-- Outside the positions the flags stay, and setting them clears none. -/
structure FlagsKept (sources : List ℕ) (spentFlag : Bool) (w w' : Wallet2) : Prop where
  length : w'.transfers.length = w.transfers.length
  outside : ∀ j ∉ sources, w'.flag j = w.flag j
  set : spentFlag = true → ∀ j, w.flag j = true → w'.flag j = true

theorem FlagsKept.refl {sources : List ℕ} {spentFlag : Bool} : FlagsKept sources spentFlag w w :=
  ⟨rfl, fun _ _ => rfl, fun _ _ h => h⟩

theorem FlagsKept.modify {sources : List ℕ} {spentFlag : Bool} (h : FlagsKept sources spentFlag w₀ w)
    {i : ℕ} (hi : i ∈ sources) (hlt : i < w.transfers.length) : FlagsKept sources spentFlag w₀
      { w with transfers := w.transfers.modify i fun td => { td with spent := spentFlag } } where
  length := by
    simp only [List.length_modify]
    exact h.length
  outside j hj := by
    rw [flag_modify, if_neg]
    · exact h.outside j hj
    · rintro rfl
      exact hj hi
  set hset j hj := by
    rw [flag_modify]
    split_ifs with hij
    · rw [← hij, hset, decide_eq_true hlt]
      rfl
    · exact h.set hset j hj

theorem setSpentFlags_kept {sources l : List ℕ} {spentFlag : Bool} (h : FlagsKept sources spentFlag w₀ w)
    (hl : l ⊆ sources) : Leaves (FlagsKept sources spentFlag w₀) id (setSpentFlags spentFlag l w) := by
  induction l generalizing w with
  | nil => exact .ok h
  | cons i l ih =>
    rw [List.cons_subset] at hl
    unfold setSpentFlags setTransferSpentFlag
    split_ifs with hlt
    · exact ih (h.modify hl.1 hlt) hl.2
    · exact .error h

theorem setSpentFlags_ok {l : List ℕ} {spentFlag : Bool} (hl : ∀ i ∈ l, i < w.transfers.length) :
    ∃ w', setSpentFlags spentFlag l w = .ok w' ∧ ∀ i ∈ l, w'.flag i = spentFlag := by
  induction l generalizing w with
  | nil => exact ⟨w, rfl, by simp⟩
  | cons i l ih =>
    rw [List.forall_mem_cons] at hl
    unfold setSpentFlags setTransferSpentFlag
    rw [if_pos hl.1]
    obtain ⟨w', hw', hflags⟩ := ih (w := { w with
      transfers := w.transfers.modify i fun td => { td with spent := spentFlag } }) (by simpa using hl.2)
    refine ⟨w', hw', List.forall_mem_cons.mpr ⟨?_, hflags⟩⟩
    by_cases hi : i ∈ l
    · exact hflags i hi
    · -- nothing after it touches the first
      have hkept : Leaves (FlagsKept l spentFlag _) id (setSpentFlags spentFlag l { w with
          transfers := w.transfers.modify i fun td => { td with spent := spentFlag } }) :=
        setSpentFlags_kept .refl fun _ h => h
      rw [hw', leaves_ok] at hkept
      rw [show w'.flag i = _ from hkept.outside i hi, flag_modify, if_pos rfl, decide_eq_true hl.1,
        Bool.true_and]

theorem cancelSources_kept {sources l : List ℕ} (h : FlagsKept sources false w₀ w) (hl : l ⊆ sources) :
    Leaves (FlagsKept sources false w₀) id (cancelSources l w) := by
  induction l generalizing w with
  | nil => exact .ok h
  | cons i l ih =>
    rw [List.cons_subset] at hl
    unfold cancelSources
    split_ifs with hflag
    · exact ih (h.modify hl.1 (lt_of_flag hflag)) hl.2
    · exact .error h

theorem cancelSources_ok {l : List ℕ} (hnodup : l.Nodup) (hl : ∀ i ∈ l, w.flag i = true) :
    ∃ w', cancelSources l w = .ok w' := by
  induction l generalizing w with
  | nil => exact ⟨w, rfl⟩
  | cons i l ih =>
    rw [List.nodup_cons] at hnodup
    rw [List.forall_mem_cons] at hl
    unfold cancelSources
    rw [if_pos (show (w.transfers[i]?).any TransferDetails.spent = true from hl.1)]
    refine ih hnodup.2 fun j hj => ?_
    rw [flag_modify, if_neg]
    · exact hl.2 j hj
    · rintro rfl
      exact hnodup.1 hj

end Flags

section Send

variable {E : WalletEnv} {x : SpendEnv} {arg : CreateTxArg} {res : CreateTxRes} {w₀ w : Wallet2}

/-- The flags are those of `w₀`. -/
structure SameFlags (w₀ w : Wallet2) : Prop where
  length : w.transfers.length = w₀.transfers.length
  flag : ∀ j, w.flag j = w₀.flag j

theorem setTransferKeyImages_flags {l : List (ℕ × KeyImage)} (h : SameFlags w₀ w) :
    Leaves (SameFlags w₀) id (setTransferKeyImages l w) := by
  induction l generalizing w with
  | nil => exact .ok h
  | cons p l ih =>
    unfold setTransferKeyImages setTransferKeyImage
    split_ifs
    · refine ih ⟨by simpa using h.length, fun j => ?_⟩
      rw [← h.flag j, flag, flag]
      simp only [List.getElem?_modify]
      cases w.transfers[j]? with
      | none => rfl
      | some td =>
        simp only [Option.map_eq_map, Option.map_some, Option.any_some]
        split_ifs <;> rfl
    · exact .error h

theorem addPendingKeyImages_transfers {l : List (PublicKey × KeyImage)} :
    (l.foldl addPendingKeyImage w).transfers = w.transfers := by
  induction l using List.reverseRecOn with
  | nil => rfl
  | append_singleton l p ih =>
    rw [List.foldl_append, List.foldl_cons, List.foldl_nil]
    unfold addPendingKeyImage
    split_ifs
    · exact ih
    · exact ih

theorem learnKeyImages_flags (h : SameFlags w₀ w) :
    Leaves (SameFlags w₀) id (learnKeyImages arg res w) := by
  unfold learnKeyImages
  split_ifs
  · split
    · refine setTransferKeyImages_flags ⟨?_, fun j => ?_⟩
      · rw [addPendingKeyImages_transfers]
        exact h.length
      · rw [← h.flag j, flag, flag, addPendingKeyImages_transfers]
    · exact .error h
  · exact .ok h

/-- How `finalize_transaction` leaves the flags. -/
structure Finalized (x : SpendEnv) (sources : List ℕ) (doNotRelay : Bool) (w w' : Wallet2) : Prop where
  kept : FlagsKept sources (doNotRelay || decide (x.sendRawTx.2 = .ok)) w w'
  marked : doNotRelay = true ∨ x.sendRawTx.2 = .ok → (∀ i ∈ sources, i < w.transfers.length) →
    ∀ i ∈ sources, w'.flag i = true

theorem setSpentFlags_finalized {sources : List ℕ} {doNotRelay spentFlag : Bool}
    (hflag : spentFlag = (doNotRelay || decide (x.sendRawTx.2 = .ok))) :
    Leaves (Finalized x sources doNotRelay w) id (setSpentFlags spentFlag sources w) := by
  have hkept : Leaves (FlagsKept sources spentFlag w) id (setSpentFlags spentFlag sources w) :=
    setSpentFlags_kept .refl fun _ h => h
  cases hr : setSpentFlags spentFlag sources w with
  | error w' =>
    rw [hr, leaves_error] at hkept
    refine .error ⟨hflag ▸ hkept, fun _ hlt => ?_⟩
    obtain ⟨w₁, hw₁, -⟩ : ∃ w₁, setSpentFlags spentFlag sources w = .ok w₁ ∧ _ := setSpentFlags_ok hlt
    rw [hr] at hw₁
    cases hw₁
  | ok w' =>
    rw [hr, leaves_ok] at hkept
    refine .ok ⟨hflag ▸ hkept, fun hmark hlt => ?_⟩
    obtain ⟨w₁, hw₁, hflags⟩ : ∃ w₁, setSpentFlags spentFlag sources w = .ok w₁ ∧ _ :=
      setSpentFlags_ok hlt
    obtain rfl : w' = w₁ := Except.ok.inj (hr.symm.trans hw₁)
    rw [show spentFlag = true by rw [hflag]; simpa using hmark] at hflags
    exact hflags

theorem relayTransaction_flags {sources : List ℕ} {doNotRelay : Bool} :
    Leaves (Finalized x sources doNotRelay w) id (relayTransaction x sources doNotRelay w) := by
  unfold relayTransaction
  cases doNotRelay with
  | true => exact setSpentFlags_finalized (by simp)
  | false =>
    have hflags : Leaves (Finalized x sources false w) id
        (setSpentFlags (decide (x.sendRawTx.2 = .ok)) sources w) :=
      setSpentFlags_finalized (by simp)
    simp only [Bool.false_eq_true, if_false]
    split
    · next hr =>
      rw [hr, leaves_error] at hflags
      exact .error hflags
    · next hr =>
      rw [hr, leaves_ok] at hflags
      split_ifs
      · exact .ok hflags
      · exact .error hflags

theorem finalizeTransaction_flags {doNotRelay : Bool} (hsend : Sendable E arg res w) :
    Leaves (Finalized x (spentIndices arg.sources) doNotRelay w) id
      (finalizeTransaction E x arg res doNotRelay w) := by
  unfold finalizeTransaction
  rw [if_neg hsend]
  have hrelay : Leaves (Finalized x (spentIndices arg.sources) doNotRelay w) id
      (relayTransaction x (spentIndices arg.sources) doNotRelay w) := relayTransaction_flags
  split
  · next hr =>
    rw [hr, leaves_error] at hrelay
    exact .error hrelay
  · next w₁ hr =>
    rw [hr, leaves_ok] at hrelay
    have hlearn : Leaves (SameFlags w₁) id (learnKeyImages arg res (recordSent E x arg res w₁)) :=
      learnKeyImages_flags ⟨rfl, fun _ => rfl⟩
    refine hlearn.mono fun w' h => ⟨⟨?_, ?_, ?_⟩, ?_⟩
    · exact h.length.trans hrelay.kept.length
    · exact fun j hj => (h.flag j).trans (hrelay.kept.outside j hj)
    · exact fun hset j hj => (h.flag j).trans (hrelay.kept.set hset j hj)
    · exact fun hmark hlt i hi => (h.flag i).trans (hrelay.marked hmark hlt i hi)

end Send

/-- The outputs of what stands are marked. -/
structure LedgerOk (w : Wallet2) (spends : List CreatedSpend) : Prop extends Reserved spends where
  marked : ∀ s ∈ spends, s.Stands → ∀ i ∈ s.sources, w.flag i = true

section Ledger

variable {E : WalletEnv} {x : SpendEnv} {w w' : Wallet2} {spends : List CreatedSpend} {arg : CreateTxArg}

theorem LedgerOk.of_flags (h : LedgerOk w spends)
    (hflags : ∀ s ∈ spends, s.Stands → ∀ i ∈ s.sources, w.flag i = true → w'.flag i = true) :
    LedgerOk w' spends :=
  ⟨h.toReserved, fun s hs hstands i hi => hflags s hs hstands i hi (h.marked s hs hstands i hi)⟩

theorem LedgerOk.append (h : LedgerOk w spends) {s : CreatedSpend} (hnodup : s.sources.Nodup)
    (hapart : ∀ s' ∈ spends, s'.Stands → s'.sources.Disjoint s.sources)
    (hmarked : s.Stands → ∀ i ∈ s.sources, w.flag i = true) : LedgerOk w (spends ++ [s]) where
  nodup s' hs' := by
    rcases List.mem_append.mp hs' with hs' | hs'
    · exact h.nodup s' hs'
    · rw [List.mem_singleton.mp hs']
      exact hnodup
  disjoint := by
    refine List.pairwise_append.mpr ⟨h.disjoint, List.pairwise_singleton _ _, fun s' hs' t ht => ?_⟩
    rw [List.mem_singleton.mp ht]
    exact fun hstands _ => hapart s' hs' hstands
  marked s' hs' := by
    rcases List.mem_append.mp hs' with hs' | hs'
    · exact h.marked s' hs'
    · rw [List.mem_singleton.mp hs']
      exact hmarked

theorem LedgerOk.settle (h : LedgerOk w spends) {f : SpendStatus → SpendStatus}
    (hdropped : f .dropped = .dropped)
    (hmarked : ∀ s ∈ spends, s.Stands → (s.arg = arg → f s.status ≠ .dropped) →
      ∀ i ∈ s.sources, w.flag i = true → w'.flag i = true) :
    LedgerOk w' (settle arg f spends) := by
  have hsettled : ∀ s : CreatedSpend,
      (if s.arg = arg then ({ s with status := f s.status } : CreatedSpend) else s).sources = s.sources := by
    intro s
    split_ifs <;> rfl
  have hstands : ∀ s : CreatedSpend,
      (if s.arg = arg then ({ s with status := f s.status } : CreatedSpend) else s).Stands →
        s.Stands ∧ (s.arg = arg → f s.status ≠ .dropped) := by
    intro s hs
    split_ifs at hs with harg
    · refine ⟨fun hd => hs ?_, fun _ => hs⟩
      change f s.status = .dropped
      rw [hd, hdropped]
    · exact ⟨hs, fun h => absurd h harg⟩
  refine ⟨⟨fun s' hs' => ?_, ?_⟩, fun s' hs' hs₁ i hi => ?_⟩
  · obtain ⟨s, hs, rfl⟩ := List.mem_map.mp hs'
    rw [hsettled]
    exact h.nodup s hs
  · refine List.pairwise_map.mpr (h.disjoint.imp fun {s t} hst hs ht => ?_)
    rw [hsettled, hsettled]
    exact hst (hstands s hs).1 (hstands t ht).1
  · obtain ⟨s, hs, rfl⟩ := List.mem_map.mp hs'
    rw [hsettled] at hi
    obtain ⟨hs₂, harg⟩ := hstands s hs₁
    exact hmarked s hs hs₂ harg i hi (h.marked s hs hs₂ i hi)

/-- Unspent outputs belong to nothing that stands. -/
theorem LedgerOk.apart (h : LedgerOk w spends) {l : List ℕ} (hfree : ∀ i ∈ l, w.IsFree i) :
    ∀ s ∈ spends, s.Stands → s.sources.Disjoint l := by
  intro s hs hstands i hi hil
  have := h.marked s hs hstands i hi
  rw [(hfree i hil).flag] at this
  cases this

theorem LedgerOk.sent (h : LedgerOk w spends) {res : CreateTxRes} {doNotRelay : Bool}
    (hfree : ∀ i ∈ spentIndices arg.sources, w.IsFree i) (hnodup : (spentIndices arg.sources).Nodup)
    (hanswer : doNotRelay = false → IsAnswered x) :
    LedgerOk (stateLeft id (finalizeTransaction E x arg res doNotRelay w))
      (spends ++ sentSpend E x arg res doNotRelay w) := by
  by_cases hsend : Sendable E arg res w
  · have hleaves : Finalized x (spentIndices arg.sources) doNotRelay w
        (stateLeft id (finalizeTransaction E x arg res doNotRelay w)) :=
      leaves_iff.mp (finalizeTransaction_flags hsend)
    have hapart := h.apart hfree
    rw [sentSpend, if_pos hsend]
    generalize stateLeft id (finalizeTransaction E x arg res doNotRelay w) = w' at hleaves ⊢
    refine LedgerOk.append (h.of_flags fun s hs hstands i hi hflag => ?_) hnodup hapart fun hstands => ?_
    · rw [hleaves.kept.outside i (hapart s hs hstands hi)]
      exact hflag
    · refine hleaves.marked ?_ fun i hi => (hfree i hi).lt
      cases doNotRelay with
      | true => exact Or.inl rfl
      | false =>
        -- an answer that is not OK is a rejection, and drops it
        rcases hanswer rfl with hok | hreject
        · exact Or.inr hok
        · refine absurd ?_ hstands
          simp [hreject, hreject.2.1]
  · rw [sentSpend, if_neg hsend, List.append_nil]
    unfold finalizeTransaction
    rw [if_pos (not_not.mp hsend)]
    exact h

theorem LedgerOk.submit (h : LedgerOk w spends) {res : CreateTxRes}
    (hkeeps : KeepsReserved E w spends (.submitTransfer x (some arg) (some res))) :
    LedgerOk (stateLeft id (finalizeTransaction E x arg res false w))
      (record E w spends (.submitTransfer x (some arg) (some res))) := by
  simp only [record]
  by_cases hsend : Sendable E arg res w
  · have hleaves : Finalized x (spentIndices arg.sources) false w
        (stateLeft id (finalizeTransaction E x arg res false w)) :=
      leaves_iff.mp (finalizeTransaction_flags hsend)
    rw [if_pos hsend]
    generalize stateLeft id (finalizeTransaction E x arg res false w) = w' at hleaves ⊢
    have hkept := hleaves.kept
    rw [Bool.false_or] at hkept
    by_cases hok : x.sendRawTx.2 = .ok
    · rw [if_pos hok]
      rw [decide_eq_true hok] at hkept
      exact h.settle rfl fun s _ _ _ i _ hflag => hkept.set rfl i hflag
    · rw [if_neg hok]
      have hfate := hkeeps hsend hok
      -- the flags of what shares no output stay
      have hflags : ∀ s ∈ spends, s.sources.Disjoint (spentIndices arg.sources) → ∀ i ∈ s.sources,
          w.flag i = true → w'.flag i = true := by
        intro s _ hdisjoint i hi hflag
        rw [hkept.outside i (hdisjoint hi)]
        exact hflag
      split_ifs with hreject
      · refine h.settle rfl fun s hs hstands hafter i hi hflag => ?_
        by_cases hdisjoint : s.sources.Disjoint (spentIndices arg.sources)
        · exact hflags s hs hdisjoint i hi hflag
        · obtain ⟨harg, hmade, -⟩ := hfate s hs hstands hdisjoint
          exact absurd (by rw [hmade]; rfl) (hafter harg)
      · refine h.of_flags fun s hs hstands i hi hflag => ?_
        by_cases hdisjoint : s.sources.Disjoint (spentIndices arg.sources)
        · exact hflags s hs hdisjoint i hi hflag
        · exact absurd (hfate s hs hstands hdisjoint).2.2 hreject
  · rw [if_neg hsend]
    unfold finalizeTransaction
    rw [if_pos (not_not.mp hsend)]
    exact h

theorem LedgerOk.cancel (h : LedgerOk w spends)
    (hkeeps : KeepsReserved E w spends (.cancelTransfer (some arg))) :
    LedgerOk (stateLeft id (w.cancelTransfer (some arg))) (record E w spends (.cancelTransfer (some arg))) := by
  have hkept : Leaves (FlagsKept (spentIndices arg.sources) false w) id (w.cancelTransfer (some arg)) :=
    cancelSources_kept .refl fun _ hi => hi
  simp only [record]
  cases hr : w.cancelTransfer (some arg) with
  | ok w' =>
    rw [hr, leaves_ok] at hkept
    refine LedgerOk.settle h rfl fun s hs hstands hafter i hi hflag => ?_
    by_cases hdisjoint : s.sources.Disjoint (spentIndices arg.sources)
    · exact (hkept.outside i (hdisjoint hi)).trans hflag
    · exact absurd rfl (hafter (hkeeps s hs hstands hdisjoint))
  | error w' =>
    rw [hr, leaves_error] at hkept
    refine LedgerOk.of_flags h fun s hs hstands i hi hflag => ?_
    by_cases hdisjoint : s.sources.Disjoint (spentIndices arg.sources)
    · exact (hkept.outside i (hdisjoint hi)).trans hflag
    · -- what stands can be cancelled
      have hsources : s.sources = spentIndices arg.sources := by
        rw [CreatedSpend.sources, hkeeps s hs hstands hdisjoint]
      obtain ⟨w₁, hw₁⟩ := cancelSources_ok (hsources ▸ h.nodup s hs)
        (hsources ▸ h.marked s hs hstands)
      rw [show w.cancelTransfer (some arg) = .ok w₁ from hw₁] at hr
      cases hr

theorem LedgerOk.step (h : LedgerOk w spends) {call : WalletCall}
    (hkeeps : KeepsReserved E w spends call) :
    LedgerOk (call.run E w) (record E w spends call) := by
  cases call with
  | pullBlocks getBlocksFast => exact absurd hkeeps id
  | transfer x r =>
    change LedgerOk (stateLeft Prod.snd (transfer E x r w)) (record E w spends (.transfer x r))
    unfold transfer
    simp only [record]
    cases hprepare : prepareTransfer E x r w with
    | none => exact h
    | some p =>
      obtain ⟨selected, arg⟩ := p
      obtain ⟨hsources, hfree, hnodup⟩ := prepareTransfer_spec hprepare
      have hnodup := hnodup hkeeps.1
      rw [← hsources] at hfree hnodup
      simp only
      split_ifs with hview
      · -- marked and given out unsigned
        obtain ⟨w', hw', hmarked⟩ : ∃ w', setSpentFlags true selected w = .ok w' ∧ _ :=
          setSpentFlags_ok fun i hi => (hfree i (hsources ▸ hi)).lt
        have hkept : Leaves (FlagsKept selected true w) id (setSpentFlags true selected w) :=
          setSpentFlags_kept .refl fun _ hi => hi
        rw [hw', leaves_ok] at hkept
        rw [hw']
        refine LedgerOk.append (s := ⟨arg, .made⟩) ?_ hnodup (h.apart hfree) fun _ i hi =>
          hmarked i (hsources ▸ hi)
        exact h.of_flags fun s _ _ i _ hflag => hkept.set rfl i hflag
      · -- signed here; a construction that fails leaves the wallet as it was
        cases x.constructTx 0 w.account arg with
        | none => exact h
        | some res =>
          simp only
          rw [stateLeft_map]
          exact h.sent hfree hnodup (hkeeps.2 (Bool.not_eq_true _ ▸ hview))
  | sweepBelow x r =>
    change LedgerOk (stateLeft Prod.snd (sweepBelow E x r w)) (record E w spends (.sweepBelow x r))
    unfold sweepBelow
    simp only [record]
    cases hprepare : prepareSweep E x r w with
    | none => exact h
    | some p =>
      obtain ⟨found, n, arg, last⟩ := p
      obtain ⟨hfree, hnodup⟩ := prepareSweep_spec hprepare
      simp only [hkeeps.1, Bool.false_eq_true, if_false]
      cases x.constructTx n w.account arg with
      | none => exact h
      | some res =>
        simp only
        rw [stateLeft_map]
        exact h.sent hfree hnodup fun _ => hkeeps.2
  | submitTransfer x arg res =>
    change LedgerOk (stateLeft Prod.snd (submitTransfer E x arg res w)) _
    unfold submitTransfer
    split
    · rw [stateLeft_map]
      exact h.submit hkeeps
    · -- an argument or a result that did not parse leaves wallet and ledger alone
      next hnone =>
      cases arg with
      | none => exact h
      | some arg =>
        cases res with
        | none => exact h
        | some res => exact absurd rfl (hnone arg res rfl)
  | cancelTransfer arg =>
    cases arg with
    | none => exact h
    | some arg => exact h.cancel hkeeps

theorem LedgerOk.run {calls : List WalletCall} {s : Wallet2 × List CreatedSpend} (h : LedgerOk s.1 s.2)
    (hrun : ReservedRun E calls s) :
    LedgerOk (runLedger E calls s).1 (runLedger E calls s).2 := by
  induction calls generalizing s with
  | nil => exact h
  | cons call l ih => exact ih (h.step hrun.1) hrun.2

end Ledger

/-- In every run of calls that meet the condition, no transaction spends an output twice, and no two that
stand spend the same one. -/
theorem reserved_run (E : WalletEnv) (w₀ : Wallet2) (calls : List WalletCall)
    (hrun : ReservedRun E calls (w₀, [])) : Reserved (runLedger E calls (w₀, [])).2 :=
  (LedgerOk.run ⟨⟨by simp, .nil⟩, by simp⟩ hrun).toReserved

/-- A view-only wallet with one output of amount 5, old enough to be spent. -/
def sampleMature : Wallet2 :=
  WalletCall.run sampleWalletEnv (sampleWallet true) (.pullBlocks (serve sampleWalletEnv.toEnv
    (samplePaid ++ (List.range 10).map fun i => sampleServed (i + 2) 0 [] [])))

def sampleTransfer (amount : UInt64) (outsToSpend : List ℕ) : TransferRequest where
  dsts := [⟨amount, { spendPublicKey := 1, viewPublicKey := 2 }⟩]
  fakeOutputsCount := 0
  unlockTime := 0
  fee := 0
  extra := []
  splitStrategy := digitSplitStrategy
  dustPolicy := {}
  txOutsAttr := 0
  doNotRelay := false
  outsToSpend

def sampleSweep : SweepRequest where
  fakeOutsCount := 0
  addr := { spendPublicKey := 1, viewPublicKey := 2 }
  thresholdAmount := 100
  paymentId := []
  fee := 1

/-- The transaction that spends the output. -/
def sampleMade : Option CreateTxArg :=
  (prepareTransfer sampleWalletEnv sampleSpendEnv (sampleTransfer 3 []) sampleMature).map Prod.snd

/-- It is made, cancelled and made again. -/
def sampleReservedRun : List WalletCall :=
  [.transfer sampleSpendEnv (sampleTransfer 3 []), .cancelTransfer sampleMade,
    .transfer sampleSpendEnv (sampleTransfer 3 [])]

theorem reserved_run_sample :
    (runLedger sampleWalletEnv sampleReservedRun (sampleMature, [])).2.map
      (fun s => (s.sources, s.status)) = [([0], .dropped), ([0], .made)] ∧
    Reserved (runLedger sampleWalletEnv sampleReservedRun (sampleMature, [])).2 := by
  obtain ⟨hrun, hview, hview', hledger⟩ :
      (runLedger sampleWalletEnv sampleReservedRun (sampleMature, [])).2.map
        (fun s => (s.sources, s.status)) = [([0], .dropped), ([0], .made)] ∧
      sampleMature.isViewOnly = true ∧
      (WalletCall.run sampleWalletEnv (WalletCall.run sampleWalletEnv sampleMature
        (.transfer sampleSpendEnv (sampleTransfer 3 []))) (.cancelTransfer sampleMade)).isViewOnly = true ∧
      (record sampleWalletEnv sampleMature [] (.transfer sampleSpendEnv
        (sampleTransfer 3 []))).map (fun s => some s.arg) = [sampleMade] := by decide +kernel
  refine ⟨hrun, reserved_run sampleWalletEnv sampleMature sampleReservedRun ?_⟩
  unfold sampleReservedRun
  generalize sampleMade = made at hview' hledger ⊢
  generalize sampleMature = w at hview hview' hledger ⊢
  -- a call on a view-only wallet that offers everything
  have hkeeps : ∀ w' spends, w'.isViewOnly = true → KeepsReserved sampleWalletEnv w' spends
      (.transfer sampleSpendEnv (sampleTransfer 3 [])) := by
    intro w' spends hw'
    refine ⟨.nil, fun h => ?_⟩
    rw [hw'] at h
    cases h
  refine .cons (hkeeps _ _ hview) (.cons ?_ (.cons (hkeeps _ _ hview') trivial))
  cases made with
  | none => trivial
  | some arg =>
    intro s hs _ _
    have hmem : some s.arg ∈ [some arg] := hledger ▸ List.mem_map_of_mem hs
    rw [List.mem_singleton] at hmem
    exact Option.some.inj hmem

/-- An output offered twice is spent twice by one transaction, and two sweeps of a view-only wallet spend
the same one. -/
theorem spends_share_outputs :
    ¬Reserved (runLedger sampleWalletEnv [.transfer sampleSpendEnv (sampleTransfer 8 [0, 0])]
      (sampleMature, [])).2 ∧
    ¬Reserved (runLedger sampleWalletEnv
      [.sweepBelow { sampleSpendEnv with constructTx := fun _ _ _ => some sampleRes } sampleSweep,
        .sweepBelow { sampleSpendEnv with constructTx := fun _ _ _ => some sampleRes } sampleSweep]
      (sampleMature, [])).2 := by
  obtain ⟨htwice, hsweeps⟩ :
      (runLedger sampleWalletEnv [.transfer sampleSpendEnv (sampleTransfer 8 [0, 0])]
        (sampleMature, [])).2.map CreatedSpend.sources = [[0, 0]] ∧
      (runLedger sampleWalletEnv
        [.sweepBelow { sampleSpendEnv with constructTx := fun _ _ _ => some sampleRes } sampleSweep,
          .sweepBelow { sampleSpendEnv with constructTx := fun _ _ _ => some sampleRes } sampleSweep]
        (sampleMature, [])).2.map (fun s => (s.sources, s.status)) =
          [([0], SpendStatus.made), ([0], SpendStatus.made)] := by decide +kernel
  constructor
  · intro h
    have hmem : [0, 0] ∈ [[0, 0]] := by simp
    rw [← htwice] at hmem
    obtain ⟨s, hs, hsources⟩ := List.mem_map.mp hmem
    have := h.nodup s hs
    rw [hsources] at this
    exact absurd this (by decide)
  · intro h
    have hpairs : ([([0], .made), ([0], .made)] : List (List ℕ × SpendStatus)).Pairwise fun p q =>
        p.2 ≠ .dropped → q.2 ≠ .dropped → p.1.Disjoint q.1 := by
      rw [← hsweeps, List.pairwise_map]
      exact h.disjoint
    have hdisjoint := (List.pairwise_cons.mp hpairs).1 ([0], .made) (by simp) (by simp) (by simp)
    exact hdisjoint (a := 0) (by simp) (by simp)

end Wallet2

end Boolberry
