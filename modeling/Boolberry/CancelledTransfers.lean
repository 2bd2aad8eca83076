import Boolberry.Reservations

/-!
# Cancelled transfers

`cancel_transfer` looks at one spent flag and clears it before it looks at the next one.
What comes before a bad entry of the file is released, although the call throws.
-/

namespace Boolberry
open KeyValue Aborting

namespace Wallet2

/-- How `cancel_transfer` ends. -/
inductive CancelEnd where
  | returned (w : Wallet2)
  | thrown (w : Wallet2)
  | undefined

/-- The loop of `cancel_transfer`. A position beyond the transfers is read and written unchecked, and what
happens then is not defined. -/
def cancelLoop : List ℕ → Wallet2 → CancelEnd
  | [], w => .returned w
  | i :: l, w =>
      match w.transfers[i]? with
      | none => .undefined
      | some td =>
          if td.spent then
            cancelLoop l { w with transfers := w.transfers.modify i fun td => { td with spent := false } }
          else .thrown w

/-- The positions that the file lists; one that does not decrypt lists none. -/
def listed (arg : Option CreateTxArg) : List ℕ := (arg.map fun arg => spentIndices arg.sources).getD []

/-- `cancel_transfer`, from what `t_unserializable_object_from_blob` makes of the decrypted file on. -/
def cancelEnd (arg : Option CreateTxArg) (w : Wallet2) : CancelEnd :=
  match arg with
  | some arg => cancelLoop (spentIndices arg.sources) w
  | none => .thrown w

/-- Either all the listed flags were set and are cleared, or nothing happens. -/
def AllOrNothing (sources : List ℕ) (w : Wallet2) : CancelEnd → Prop
  | .returned w' => (∀ i ∈ sources, w.flag i = true) ∧
      ∀ j, w'.flag j = (w.flag j && decide (j ∉ sources))
  | .thrown w' => ∀ j, w'.flag j = w.flag j
  | .undefined => False

/-- All flags are as they were in `w`, and the call returns. -/
def Restored (w : Wallet2) : CancelEnd → Prop
  | .returned w' => ∀ j, w'.flag j = w.flag j
  | _ => False

/-- The positions are distinct and their flags are set. -/
def Releasable (sources : List ℕ) (w : Wallet2) : Prop :=
  sources.Nodup ∧ ∀ i ∈ sources, w.flag i = true

/-- The first position is one of a transfer whose flag is not set. -/
def RefusedAtOnce (sources : List ℕ) (w : Wallet2) : Prop :=
  ∃ i ∈ sources.head?, w.IsFree i

variable {w w' : Wallet2} {l : List ℕ}

/-- A call that returns is the one of the wallet's other calls, where a bad position ends in a throw. -/
theorem cancelLoop_returned : cancelLoop l w = .returned w' ↔ cancelSources l w = .ok w' := by
  induction l generalizing w with
  | nil => simp [cancelLoop, cancelSources]
  | cons i l ih =>
    unfold cancelLoop cancelSources
    cases hi : w.transfers[i]? with
    | none => simp
    | some td =>
      cases htd : td.spent with
      | false => simp [htd]
      | true => simpa [htd] using ih

theorem flag_clear {i : ℕ} (j : ℕ) :
    flag { w with transfers := w.transfers.modify i fun td => { td with spent := false } } j =
      (w.flag j && decide (j ≠ i)) := by
  rw [flag_modify]
  split_ifs with hij
  · simp [hij]
  · simp [Ne.symm hij]

theorem cancelLoop_releases (h : cancelLoop l w = .returned w') :
    Releasable l w ∧ ∀ j, w'.flag j = (w.flag j && decide (j ∉ l)) := by
  induction l generalizing w with
  | nil =>
    cases h
    exact ⟨⟨.nil, by simp⟩, by simp⟩
  | cons i l ih =>
    unfold cancelLoop at h
    split at h
    · cases h
    · next td hi =>
      split_ifs at h with hspent
      obtain ⟨⟨hnodup, hset⟩, hflags⟩ := ih h
      have hclear : ∀ j ∈ l, w.flag j = true ∧ j ≠ i := by
        intro j hj
        have := hset j hj
        rw [flag_clear] at this
        simpa using this
      refine ⟨⟨List.nodup_cons.mpr ⟨fun hmem => (hclear i hmem).2 rfl, hnodup⟩, ?_⟩, fun j => ?_⟩
      · rw [List.forall_mem_cons]
        refine ⟨?_, fun j hj => (hclear j hj).1⟩
        rw [flag, hi]
        exact hspent
      · rw [hflags, flag_clear]
        simp [Bool.and_assoc]

theorem cancelLoop_returns (h : Releasable l w) : ∃ w', cancelLoop l w = .returned w' := by
  obtain ⟨w', hw'⟩ := cancelSources_ok h.1 h.2
  exact ⟨w', cancelLoop_returned.mpr hw'⟩

theorem cancelLoop_thrown (h : cancelLoop l w = .thrown w') {j : ℕ} (hj : w'.flag j = true) :
    w.flag j = true := by
  induction l generalizing w with
  | nil => cases h
  | cons i l ih =>
    unfold cancelLoop at h
    split at h
    · cases h
    · split_ifs at h
      · have := ih h
        rw [flag_clear] at this
        simp only [Bool.and_eq_true] at this
        exact this.1
      · cases h
        exact hj

/-- A flag that is released stays so in a call that throws later. -/
theorem cancelLoop_allOrNothing :
    AllOrNothing l w (cancelLoop l w) ↔ Releasable l w ∨ RefusedAtOnce l w := by
  have hreleases : ∀ {w'}, cancelLoop l w = .returned w' → AllOrNothing l w (cancelLoop l w) := by
    intro w' h
    obtain ⟨⟨-, hset⟩, hflags⟩ := cancelLoop_releases h
    rw [h]
    exact ⟨hset, hflags⟩
  constructor
  · intro h
    cases hend : cancelLoop l w with
    | returned w' => exact .inl (cancelLoop_releases hend).1
    | undefined =>
      rw [hend] at h
      exact h.elim
    | thrown w' =>
      rw [hend] at h
      right
      cases l with
      | nil => cases hend
      | cons i l =>
        unfold cancelLoop at hend
        split at hend
        · cases hend
        · next td hi =>
          split_ifs at hend with hspent
          · -- the first flag is cleared already
            have hset : w.flag i = true := by
              rw [flag, hi]
              exact hspent
            have := cancelLoop_thrown hend ((h i).trans hset)
            rw [flag_clear] at this
            simp at this
          · exact ⟨i, rfl, td, hi, Bool.eq_false_iff.mpr hspent⟩
  · rintro (h | ⟨i, hi, td, htd, hspent⟩)
    · obtain ⟨w', hw'⟩ := cancelLoop_returns h
      exact hreleases hw'
    · obtain ⟨l', rfl⟩ := List.head?_eq_some_iff.mp hi
      unfold cancelLoop
      rw [htd]
      simp only [hspent]
      exact fun _ => rfl

section Transfer

variable {E : WalletEnv} {x : SpendEnv} {r : TransferRequest} {arg : CreateTxArg}

/-- A transaction is given out unsigned by a view-only wallet, which marks what was selected. -/
theorem transfer_unsigned (h : transfer E x r w = .ok (.unsigned arg, w')) :
    ∃ selected, prepareTransfer E x r w = some (selected, arg) ∧
      setSpentFlags true selected w = .ok w' := by
  unfold transfer at h
  split at h
  · cases h
  · next selected arg' hprepare =>
    split_ifs at h
    · cases hmark : setSpentFlags true selected w with
      | error w₁ =>
        rw [hmark] at h
        cases h
      | ok w₁ =>
        rw [hmark] at h
        cases h
        exact ⟨selected, hprepare, hmark⟩
    · split at h
      · cases h
      · next res _ =>
        cases hfin : finalizeTransaction E x arg' res r.doNotRelay w with
        | error w₁ =>
          rw [hfin] at h
          cases h
        | ok w₁ =>
          rw [hfin] at h
          cases h

theorem transfer_marks (h : transfer E x r w = .ok (.unsigned arg, w')) :
    (∀ i ∈ spentIndices arg.sources, w.flag i = false ∧ w'.flag i = true) ∧
      ∀ j ∉ spentIndices arg.sources, w'.flag j = w.flag j := by
  obtain ⟨selected, hprepare, hmark⟩ := transfer_unsigned h
  obtain ⟨hsources, hfree, -⟩ := prepareTransfer_spec hprepare
  obtain ⟨w₁, hmark₁, hset⟩ := @setSpentFlags_ok _ _ true fun i hi => (hfree i hi).lt
  rw [hmark] at hmark₁
  cases hmark₁
  have hkept : Leaves (FlagsKept selected true w) id (setSpentFlags true selected w) :=
    setSpentFlags_kept .refl fun _ h => h
  rw [hmark, leaves_ok] at hkept
  rw [hsources]
  exact ⟨fun i hi => ⟨(hfree i hi).flag, hset i hi⟩, hkept.outside⟩

theorem transfer_lists_once (h : transfer E x r w = .ok (.unsigned arg, w'))
    (honce : w.OfferedOnce x.now r.fakeOutputsCount r.outsToSpend) :
    (spentIndices arg.sources).Nodup := by
  obtain ⟨selected, hprepare, -⟩ := transfer_unsigned h
  obtain ⟨hsources, -, hnodup⟩ := prepareTransfer_spec hprepare
  rw [hsources]
  exact hnodup honce

end Transfer

theorem cancelTransfer_allOrNothing (E : WalletEnv) (w : Wallet2) :
    (∀ arg, AllOrNothing (listed arg) w (cancelEnd arg w) ↔
      arg = none ∨ Releasable (listed arg) w ∨ RefusedAtOnce (listed arg) w) ∧
    ∀ x r arg w', transfer E x r w = .ok (.unsigned arg, w') →
      (Restored w (cancelEnd (some arg) w') ↔ (spentIndices arg.sources).Nodup) := by
  constructor
  · rintro (_ | arg)
    · exact ⟨fun _ => .inl rfl, fun _ _ => rfl⟩
    · rw [or_iff_right (by simp)]
      exact cancelLoop_allOrNothing
  · intro x r arg w' h
    obtain ⟨hmarked, houtside⟩ := transfer_marks h
    constructor
    · intro hrestored
      cases hend : cancelEnd (some arg) w' with
      | returned w'' => exact (cancelLoop_releases hend).1.1
      | thrown w'' =>
        rw [hend] at hrestored
        exact hrestored.elim
      | undefined =>
        rw [hend] at hrestored
        exact hrestored.elim
    · intro hnodup
      obtain ⟨w'', hw''⟩ := cancelLoop_returns ⟨hnodup, fun i hi => (hmarked i hi).2⟩
      rw [show cancelEnd (some arg) w' = _ from hw'']
      intro j
      rw [(cancelLoop_releases hw'').2]
      by_cases hj : j ∈ spentIndices arg.sources
      · rw [(hmarked j hj).1]
        simp [hj]
      · rw [houtside j hj]
        simp [hj]

/-- Whether a call gave out a transaction to sign elsewhere. -/
def gaveOut : Except Wallet2 (RelayBlob × Wallet2) → Bool
  | .ok (.unsigned _, _) => true
  | _ => false

theorem of_gaveOut {r : Except Wallet2 (RelayBlob × Wallet2)} (h : gaveOut r = true) :
    ∃ arg w, r = .ok (.unsigned arg, w) := by
  unfold gaveOut at h
  split at h
  · exact ⟨_, _, rfl⟩
  · cases h

theorem cancelTransfer_allOrNothing_sample :
    ∃ arg w', transfer sampleWalletEnv sampleSpendEnv (sampleTransfer 3 []) sampleMature =
        .ok (.unsigned arg, w') ∧
      Restored sampleMature (cancelEnd (some arg) w') := by
  have hunsigned : gaveOut (transfer sampleWalletEnv sampleSpendEnv (sampleTransfer 3 [])
      sampleMature) = true := by decide +kernel
  obtain ⟨arg, w', h⟩ := of_gaveOut hunsigned
  have honce : (spentIndices arg.sources).Nodup := transfer_lists_once h List.nodup_nil
  exact ⟨arg, w', h, ((cancelTransfer_allOrNothing sampleWalletEnv sampleMature).2 _ _ arg w' h).mpr honce⟩

/-- A view-only wallet with a reserved output and a free one. -/
def sampleReserved : Wallet2 :=
  { sampleWallet true with
    transfers := [(1, true), (2, false)].map fun p =>
      { blockHeight := 1, tx := sampleTx p.1 [.gen 1] [sampleOut 5 p.1], internalOutputIndex := 0
        globalOutputIndex := 0, spent := p.2, keyImage := 0 } }

/-- The file of a transaction that spends both. -/
def sampleBoth : CreateTxArg :=
  { sampleArg with sources := [0, 1].map fun i =>
      ⟨[(0, sampleOutKey sampleAccount.keys (BitVec.ofNat 256 (i + 1)) 0)], 0, BitVec.ofNat 256 (i + 1), 0, 5, i⟩ }

/-- The call throws at the free output and has released the other one. -/
theorem cancelTransfer_releases_part :
    (∃ w', cancelEnd (some sampleBoth) sampleReserved = .thrown w' ∧
      sampleReserved.flag 0 = true ∧ w'.flag 0 = false) ∧
    ¬AllOrNothing (listed (some sampleBoth)) sampleReserved
      (cancelEnd (some sampleBoth) sampleReserved) := by
  have hthrown : ∃ w', cancelEnd (some sampleBoth) sampleReserved = .thrown w' ∧
      sampleReserved.flag 0 = true ∧ w'.flag 0 = false := ⟨_, rfl, by decide, by decide⟩
  refine ⟨hthrown, fun h => ?_⟩
  obtain ⟨w', hend, hset, hclear⟩ := hthrown
  rw [hend] at h
  have := h 0
  rw [hset, hclear] at this
  cases this

end Wallet2

end Boolberry
