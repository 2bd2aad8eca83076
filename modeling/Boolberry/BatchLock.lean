import Mathlib.Data.Nat.Notation
import Mathlib.Logic.Function.Basic
import Mathlib.Tactic.SplitIfs

/-!
# The batch lock

`call_if_no_batch_exclusive_operation` holds `m_exclusive_batch_lock` until what it calls has returned,
and a batch is started and finished within such a call only. So nobody who gets the lock finds a batch
active: whoever comes while there is one waits.
-/

namespace Boolberry

/-- Where a thread stands: outside, in what `call_if_no_batch_exclusive_operation` calls, or there
between `start_batch_exclusive_operation` and `finish_batch_exclusive_operation`. -/
inductive BatchPc where
  | outside
  | called
  | batch
deriving DecidableEq

structure BatchLock where
  /-- The thread that holds `m_exclusive_batch_lock`. -/
  exclusiveBatchLock : Option ℕ := none
  exclusiveBatchActive : Bool := false
  pc : ℕ → BatchPc := fun _ => .outside

inductive BatchAct where
  | call
  | startBatch
  | finishBatch
  | ret

namespace BatchLock

/-- The lock is a recursive one. -/
def CanLock (l : BatchLock) (t : ℕ) : Prop :=
  l.exclusiveBatchLock = none ∨ l.exclusiveBatchLock = some t

instance (l : BatchLock) (t : ℕ) : Decidable (l.CanLock t) := inferInstanceAs (Decidable (_ ∨ _))

/-- An act of the thread `t`, `none` when it has to wait or is not there. A call within a call, as in
`request_missing_objects`, starts no batch and is left out. -/
def step (l : BatchLock) (t : ℕ) : BatchAct → Option BatchLock
  | .call =>
      if l.pc t = .outside ∧ l.CanLock t then
        -- with an active batch the lock is given back at once and nothing is called
        if l.exclusiveBatchActive then some l
        else some { l with exclusiveBatchLock := some t, pc := Function.update l.pc t .called }
      else none
  | .startBatch =>
      if l.pc t = .called ∧ l.CanLock t then
        some { l with exclusiveBatchActive := true, pc := Function.update l.pc t .batch }
      else none
  | .finishBatch =>
      if l.pc t = .batch ∧ l.CanLock t then
        some { l with exclusiveBatchActive := false, pc := Function.update l.pc t .called }
      else none
  | .ret =>
      if l.pc t = .called then
        some { l with exclusiveBatchLock := none, pc := Function.update l.pc t .outside }
      else none

/-- Who is inside holds the lock, and the flag is set while that one has a batch. -/
structure Exclusive (l : BatchLock) : Prop where
  holds : ∀ t, l.pc t ≠ .outside ↔ l.exclusiveBatchLock = some t
  active : l.exclusiveBatchActive = true ↔ ∃ t, l.pc t = .batch

theorem exclusive_init : Exclusive {} := ⟨by simp, by simp⟩

theorem Exclusive.not_active {l : BatchLock} (h : l.Exclusive) (hfree : l.exclusiveBatchLock = none) :
    l.exclusiveBatchActive = false := by
  refine Bool.eq_false_iff.mpr fun hactive => ?_
  obtain ⟨t, ht⟩ := h.active.mp hactive
  have howner := (h.holds t).mp (by rw [ht]; nofun)
  rw [hfree] at howner
  cases howner

theorem Exclusive.pc_of_ne {l : BatchLock} (h : l.Exclusive) {t t' : ℕ} (ht : l.pc t ≠ .outside)
    (hne : t' ≠ t) : l.pc t' = .outside := by
  by_contra hinside
  have howner := (h.holds t).mp ht
  rw [(h.holds t').mp hinside] at howner
  exact hne (Option.some.inj howner)

theorem Exclusive.move {l : BatchLock} (h : l.Exclusive) {t : ℕ} {p : BatchPc}
    (ht : l.pc t ≠ .outside) (hp : p ≠ .outside) :
    Exclusive { l with exclusiveBatchActive := decide (p = .batch), pc := Function.update l.pc t p } where
  holds t' := by
    by_cases heq : t' = t
    · subst heq
      simpa [hp] using (h.holds t').mp ht
    · simpa [Function.update_of_ne heq] using h.holds t'
  active := by
    rw [decide_eq_true_iff]
    constructor
    · intro hbatch
      exact ⟨t, by simpa using hbatch⟩
    · rintro ⟨t', hbatch⟩
      by_cases heq : t' = t
      · subst heq
        simpa using hbatch
      · simp [Function.update_of_ne heq, h.pc_of_ne ht heq] at hbatch

theorem Exclusive.step {l l' : BatchLock} (h : l.Exclusive) {t : ℕ} {a : BatchAct}
    (hl : l.step t a = some l') : l'.Exclusive := by
  cases a with
  | call =>
    simp only [BatchLock.step] at hl
    split_ifs at hl with henter hactive
    · cases hl
      exact h
    · cases hl
      -- the caller is outside, so it is not the owner: the lock was free
      have hfree : l.exclusiveBatchLock = none := by
        refine henter.2.resolve_right fun howner => ?_
        exact (h.holds t).mpr howner henter.1
      have hout (t' : ℕ) : l.pc t' = .outside := by
        by_contra hinside
        have howner := (h.holds t').mp hinside
        rw [hfree] at howner
        cases howner
      constructor
      · intro t'
        by_cases heq : t' = t
        · simp [heq]
        · simpa [Function.update_of_ne heq, hout] using Ne.symm heq
      · refine iff_of_false hactive ?_
        rintro ⟨t', hbatch⟩
        by_cases heq : t' = t
        · simp [heq] at hbatch
        · simp [Function.update_of_ne heq, hout] at hbatch
  | startBatch =>
    simp only [BatchLock.step] at hl
    split_ifs at hl with hcalled
    cases hl
    exact h.move (p := .batch) (by rw [hcalled.1]; nofun) nofun
  | finishBatch =>
    simp only [BatchLock.step] at hl
    split_ifs at hl with hbatch
    cases hl
    exact h.move (p := .called) (by rw [hbatch.1]; nofun) nofun
  | ret =>
    simp only [BatchLock.step] at hl
    split_ifs at hl with hcalled
    cases hl
    have hinside : l.pc t ≠ .outside := by rw [hcalled]; nofun
    have hout (t' : ℕ) : Function.update l.pc t .outside t' = .outside := by
      by_cases heq : t' = t
      · simp [heq]
      · rw [Function.update_of_ne heq, h.pc_of_ne hinside heq]
    constructor
    · intro t'
      simp [hout]
    · refine iff_of_false (fun hactive => ?_) (by simp [hout])
      obtain ⟨t', hbatch⟩ := h.active.mp hactive
      by_cases heq : t' = t
      · rw [heq, hcalled] at hbatch
        cases hbatch
      · rw [h.pc_of_ne hinside heq] at hbatch
        cases hbatch

end BatchLock

end Boolberry
