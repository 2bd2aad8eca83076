import Boolberry.Synchronizing

/-!
# Pausing the miner

The two handlers that add blocks pause the miner. One resumes it right after its block;
the scope-exit handler of the other one binds the call that would resume it and never
makes it.
-/

namespace Boolberry

/-- `m_pausers_count` of `miner`. -/
structure Miner where
  pausersCount : Int32
deriving DecidableEq

namespace Miner

def pause (m : Miner) : Miner := { m with pausersCount := m.pausersCount + 1 }

/-- `miner::resume`; a count below zero is logged and set to zero. -/
def resume (m : Miner) : Miner :=
  if m.pausersCount - 1 < 0 then { m with pausersCount := 0 }
  else { m with pausersCount := m.pausersCount - 1 }

/-- `boost::bind(&t_core::resume_mine, &m_core);` makes a function object and drops it. -/
def bindResume (m : Miner) : Miner := m

theorem pause_ne (m : Miner) : m.pause ≠ m := by
  intro h
  have hcount : m.pausersCount + 1 = m.pausersCount := congrArg pausersCount h
  exact absurd (Int32.add_eq_left.mp hcount) (by decide)

theorem resume_pause_iff (m : Miner) : m.pause.resume = m ↔ 0 ≤ m.pausersCount := by
  have hcount : m.pausersCount + 1 - 1 = m.pausersCount := Int32.add_sub_cancel _ _
  unfold resume pause
  simp only [hcount]
  split_ifs with h
  · refine iff_of_false (fun heq => ?_) (Int32.not_le.mpr h)
    have hzero : 0 = m.pausersCount := congrArg pausersCount heq
    rw [← hzero] at h
    exact absurd h (by decide)
  · exact iff_of_true rfl (Int32.not_lt.mp h)

end Miner

/-- A connection in its surroundings, with the miner. -/
structure Mining (σ : Type) where
  session : Session σ
  miner : Miner

namespace Mining

open Session

variable {σ : Type} (E : Env) (C : ProtocolCore σ)

def dropConnection (s : Mining σ) : Mining σ := { s with session := s.session.dropConnection }

def handleNotifyNewBlock (arg : NotifyNewBlock) (s : Mining σ) : Option (Mining σ) :=
  if s.session.takesNews then
    match handleTxs C true arg.b.txs s.session with
    | (false, session) => some { s with session }
    | (true, session) =>
        let miner := s.miner.pause
        match C.handleIncomingBlock session.world.core arg.b.block with
        | none => none
        | some (bvc, core) =>
            let s : Mining σ := ⟨session.setCore core, miner.resume⟩
            if bvc.verifivationFailed then some s.dropConnection
            else if bvc.addedToMainChain then some s
            else if bvc.markedAsOrphaned then
              let session := s.session.setState .synchronizing
              let request := .requestChain (C.getShortChainHistory session.world.core)
              some { s with session := session.postRequest request }
            else some s
  else some s

/-- The part of `handle_response_get_objects` that runs when the core is not busy. The block that pauses
the miner is left by its scope-exit handler, however it ends. -/
def processObjects (arg : NotifyResponseGetObjects) (s : Mining σ) : Option (Mining σ) :=
  match prevalidate E C 0 arg.blocks s.session with
  | (false, session) => some { s with session }
  | (true, session) =>
      if session.context.requestedObjects ≠ ∅ then some { s with session := session.dropConnection }
      else
        let miner := s.miner.pause
        match handleBlocks C 0 arg.blocks (session.setExclusiveBatch true) with
        | none => none
        | some (false, session) => some ⟨session.setExclusiveBatch false, miner.bindResume⟩
        | some (true, session) =>
            some ⟨(requestMissingObjects C true (session.setExclusiveBatch false)).2, miner.bindResume⟩

def handleResponseGetObjects (arg : NotifyResponseGetObjects) (s : Mining σ) : Option (Mining σ) :=
  if arg.currentBlockchainHeight < s.session.context.lastResponseHeight then some s.dropConnection
  else
    let s := { s with session := s.session.withRemoteHeight arg.currentBlockchainHeight }
    match s.session.callIfNoBatchExclusiveOperation fun session =>
        processObjects E C arg { s with session } with
    | some r => r
    | none => some { s with session := s.session.setState .idle }

/-- The handler that is called. The others leave the miner alone. -/
def handle (s : Mining σ) : Delivery → Option (Mining σ)
  | .newBlock arg => handleNotifyNewBlock C arg s
  | .responseGetObjects arg => handleResponseGetObjects E C arg s
  | d => (Session.handle E C s.session d).map fun session => { s with session }

section Sessions

variable {E C}

theorem handleNotifyNewBlock_session (arg : NotifyNewBlock) (s : Mining σ) :
    (handleNotifyNewBlock C arg s).map session = Session.handleNotifyNewBlock C arg s.session := by
  unfold handleNotifyNewBlock Session.handleNotifyNewBlock
  split_ifs
  · cases handleTxs C true arg.b.txs s.session with
    | mk passed session =>
      cases passed with
      | false => rfl
      | true =>
        cases hblock : C.handleIncomingBlock session.world.core arg.b.block with
        | none => simp [hblock]
        | some r =>
          simp only [hblock]
          split_ifs <;> rfl
  · rfl

theorem processObjects_session (arg : NotifyResponseGetObjects) (s : Mining σ) :
    (processObjects E C arg s).map session = Session.processObjects E C arg s.session := by
  unfold processObjects Session.processObjects
  cases prevalidate E C 0 arg.blocks s.session with
  | mk passed session =>
    cases passed with
    | false => rfl
    | true =>
      simp only
      split_ifs
      · rfl
      · cases handleBlocks C 0 arg.blocks (session.setExclusiveBatch true) with
        | none => rfl
        | some r =>
          obtain ⟨done, session⟩ := r
          cases done <;> rfl

theorem handleResponseGetObjects_session (arg : NotifyResponseGetObjects) (s : Mining σ) :
    (handleResponseGetObjects E C arg s).map session =
      Session.handleResponseGetObjects E C arg s.session := by
  unfold handleResponseGetObjects Session.handleResponseGetObjects callIfNoBatchExclusiveOperation
  split_ifs
  · rfl
  · simp only
    split_ifs
    · rfl
    · exact processObjects_session arg _

theorem handle_session (s : Mining σ) (d : Delivery) :
    (handle E C s d).map session = Session.handle E C s.session d := by
  cases d with
  | newBlock arg => exact handleNotifyNewBlock_session arg s
  | responseGetObjects arg => exact handleResponseGetObjects_session arg s
  | callback => rfl
  | syncData hshd isInital dropIfRefused => rfl
  | newTransactions txs => rfl
  | requestChain blockIds => rfl
  | requestGetObjects arg => rfl
  | responseChainEntry arg => rfl

end Sessions

/-- The transactions pass one after the other. -/
def TxsAccepted : σ → List Blob → Prop
  | _, [] => True
  | core, txBlob :: l =>
      (C.handleIncomingTx core txBlob true).1.verifivationFailed = false ∧
        TxsAccepted (C.handleIncomingTx core txBlob true).2 l

/-- The entries from the `i`-th on are blocks as they were requested, each once and none missing, and the
handler does not have to stop before them. -/
inductive Answers (w : World σ) : ℕ → List BlockCompleteEntry → Finset Hash → Prop
  | nil {i : ℕ} : Answers w i [] ∅
  | cons {i : ℕ} {entry : BlockCompleteEntry} {l : List BlockCompleteEntry} {requested : Finset Hash}
      {b : Block} : w.stop (.prevalidation i) = false →
      parseAndValidateBlockFromBlob entry.block = some b →
      ¬(i = 1 ∧ C.haveBlock w.core (getBlockHash E b) = true) → getBlockHash E b ∈ requested →
      b.txHashes.length = entry.txs.length →
      Answers w (i + 1) l (requested.erase (getBlockHash E b)) → Answers w i (entry :: l) requested

/-- The condition on a message and the state before it. -/
def PausesBalanced (s : Mining σ) : Delivery → Prop
  | .newBlock arg => s.session.takesNews = true →
      TxsAccepted C s.session.world.core arg.b.txs → 0 ≤ s.miner.pausersCount
  | .responseGetObjects arg =>
      s.session.context.lastResponseHeight ≤ arg.currentBlockchainHeight →
        s.session.world.exclusiveBatchActive = false →
          ¬Answers E C s.session.world 0 arg.blocks s.session.context.requestedObjects
  | _ => True

section Balance

variable {E C}

theorem handleTxs_iff (l : List Blob) (s : Session σ) :
    (handleTxs C true l s).1 = true ↔ TxsAccepted C s.world.core l := by
  induction l generalizing s with
  | nil => exact iff_of_true rfl trivial
  | cons txBlob l ih =>
    unfold handleTxs TxsAccepted
    simp only
    cases hfailed : (C.handleIncomingTx s.world.core txBlob true).1.verifivationFailed with
    | true => simp
    | false =>
      rw [if_neg (by simp), ih, and_iff_right rfl]
      rfl

theorem prevalidate_iff (i : ℕ) (l : List BlockCompleteEntry) (s : Session σ) :
    (prevalidate E C i l s).1 = true ∧ (prevalidate E C i l s).2.context.requestedObjects = ∅ ↔
      Answers E C s.world i l s.context.requestedObjects := by
  induction l generalizing i s with
  | nil =>
    constructor
    · rintro ⟨-, h⟩
      rw [show s.context.requestedObjects = ∅ from h]
      exact .nil
    · intro h
      generalize hr : s.context.requestedObjects = requested at h
      cases h
      exact ⟨rfl, hr⟩
  | cons entry l ih =>
    constructor
    · intro h
      unfold prevalidate checkStopFlagAndExit at h
      cases hstop : s.world.stop (.prevalidation i) with
      | true => simp [hstop] at h
      | false =>
        rw [hstop] at h
        simp only [Bool.false_eq_true, if_false] at h
        cases hparse : parseAndValidateBlockFromBlob entry.block with
        | none => simp [hparse] at h
        | some b =>
          rw [hparse] at h
          simp only at h
          by_cases hfaster : i = 1 ∧ C.haveBlock s.world.core (getBlockHash E b) = true
          · simp [hfaster] at h
          by_cases hrequested : getBlockHash E b ∈ s.context.requestedObjects
          · by_cases hcount : b.txHashes.length = entry.txs.length
            · rw [if_neg hfaster, if_neg (not_not.mpr hrequested), if_neg (not_not.mpr hcount)] at h
              exact .cons hstop hparse hfaster hrequested hcount ((ih (i + 1) _).mp h)
            · simp [hfaster, hrequested, hcount] at h
          · simp [hfaster, hrequested] at h
    · intro h
      generalize hr : s.context.requestedObjects = requested at h
      cases h with
      | @cons _ _ _ _ b hstop hparse hfaster hrequested hcount hrest =>
        rw [← hr] at hrequested hrest
        unfold prevalidate checkStopFlagAndExit
        rw [hstop, if_neg (by simp), hparse]
        simp only
        rw [if_neg hfaster, if_neg (not_not.mpr hrequested), if_neg (not_not.mpr hcount)]
        exact (ih (i + 1) _).mpr hrest

theorem handleNotifyNewBlock_balanced {arg : NotifyNewBlock} {s s' : Mining σ}
    (h : handleNotifyNewBlock C arg s = some s') :
    s'.miner = s.miner ↔ PausesBalanced E C s (.newBlock arg) := by
  unfold handleNotifyNewBlock at h
  unfold PausesBalanced
  simp only
  rw [← handleTxs_iff]
  split_ifs at h with htakes
  · rw [forall_prop_of_true htakes]
    cases htxs : handleTxs C true arg.b.txs s.session with
    | mk passed session =>
      rw [htxs] at h
      cases passed with
      | false =>
        cases h
        exact iff_of_true rfl fun h => by cases h
      | true =>
        simp only at h
        rw [forall_prop_of_true rfl, ← Miner.resume_pause_iff]
        have hminer : s'.miner = s.miner.pause.resume := by
          split at h
          · cases h
          · split_ifs at h <;> (cases h; rfl)
        rw [hminer]
  · cases h
    exact iff_of_true rfl fun h => absurd h htakes

/-- The miner is left paused just when the loop over the blocks is reached. -/
theorem processObjects_balanced {arg : NotifyResponseGetObjects} {s s' : Mining σ}
    (h : processObjects E C arg s = some s') :
    s'.miner = s.miner ↔ ¬((prevalidate E C 0 arg.blocks s.session).1 = true ∧
      (prevalidate E C 0 arg.blocks s.session).2.context.requestedObjects = ∅) := by
  unfold processObjects at h
  cases hpre : prevalidate E C 0 arg.blocks s.session with
  | mk passed session =>
    rw [hpre] at h
    cases passed with
    | false =>
      cases h
      exact iff_of_true rfl fun h => by cases h.1
    | true =>
      simp only at h
      split_ifs at h with hleft
      · cases h
        exact iff_of_true rfl fun h => hleft h.2
      · refine iff_of_false ?_ (not_not.mpr ⟨rfl, not_not.mp hleft⟩)
        have hminer : s'.miner = s.miner.pause.bindResume := by
          split at h <;> cases h <;> rfl
        rw [hminer]
        exact s.miner.pause_ne

theorem handleResponseGetObjects_balanced {arg : NotifyResponseGetObjects} {s s' : Mining σ}
    (h : handleResponseGetObjects E C arg s = some s') :
    s'.miner = s.miner ↔ PausesBalanced E C s (.responseGetObjects arg) := by
  unfold handleResponseGetObjects callIfNoBatchExclusiveOperation at h
  unfold PausesBalanced
  simp only at h ⊢
  split_ifs at h with hheight hbusy
  · cases h
    exact iff_of_true rfl fun hle => absurd hheight (UInt64.not_lt.mpr hle)
  · cases h
    refine iff_of_true rfl fun _ hidle => ?_
    rw [show s.session.world.exclusiveBatchActive = true from hbusy] at hidle
    cases hidle
  · have hidle : s.session.world.exclusiveBatchActive = false := Bool.eq_false_iff.mpr hbusy
    rw [forall_prop_of_true (UInt64.not_lt.mp hheight), forall_prop_of_true hidle]
    have hiff := @prevalidate_iff σ E C 0 arg.blocks
      (s.session.withRemoteHeight arg.currentBlockchainHeight)
    exact (processObjects_balanced h).trans (not_congr hiff)

theorem handle_balanced {s s' : Mining σ} {d : Delivery} (h : handle E C s d = some s') :
    s'.miner = s.miner ↔ PausesBalanced E C s d := by
  have hother : ∀ d, handle E C s d = ((Session.handle E C s.session d).map fun session =>
      { s with session }) → handle E C s d = some s' → s'.miner = s.miner := by
    intro d hmap h
    obtain ⟨session, -, rfl⟩ := Option.map_eq_some_iff.mp (hmap.symm.trans h)
    rfl
  cases d with
  | newBlock arg => exact handleNotifyNewBlock_balanced h
  | responseGetObjects arg => exact handleResponseGetObjects_balanced h
  | callback => exact iff_of_true (hother _ rfl h) trivial
  | syncData hshd isInital dropIfRefused => exact iff_of_true (hother _ rfl h) trivial
  | newTransactions txs => exact iff_of_true (hother _ rfl h) trivial
  | requestChain blockIds => exact iff_of_true (hother _ rfl h) trivial
  | requestGetObjects arg => exact iff_of_true (hother _ rfl h) trivial
  | responseChainEntry arg => exact iff_of_true (hother _ rfl h) trivial

end Balance

/-- A delivery, or anything that happens elsewhere, to the miner too. -/
inductive MinerEvent (σ : Type) where
  | deliver (d : Delivery)
  | elsewhere (w : World σ) (miner : Miner)

/-- In a run each handler that is called and returns satisfies `P`, with the state before it and the one
after it. -/
def EachHandled (P : Mining σ → Delivery → Mining σ → Prop) : Mining σ → List (MinerEvent σ) → Prop
  | _, [] => True
  | s, .elsewhere w miner :: l => EachHandled P ⟨{ s.session with world := w }, miner⟩ l
  | s, .deliver d :: l =>
      if s.session.context.dropped ∨ (d matches .callback) ∧ s.session.context.callbacks = 0 then
        EachHandled P s l
      else
        ∀ s', handle E C { s with session := s.session.receive d } d = some s' →
          P { s with session := s.session.receive d } d s' ∧ EachHandled P s' l

theorem pauses_balanced_iff (s : Mining σ) (l : List (MinerEvent σ)) :
    EachHandled E C (fun s _ s' => s'.miner = s.miner) s l ↔
      EachHandled E C (fun s d _ => PausesBalanced E C s d) s l := by
  induction l generalizing s with
  | nil => exact Iff.rfl
  | cons e l ih =>
    cases e with
    | elsewhere w miner => exact ih _
    | deliver d =>
      unfold EachHandled
      split_ifs
      · exact ih s
      · exact forall₂_congr fun s' h => and_congr (handle_balanced h) (ih s')

/-- A new connection beside a miner that is not paused. -/
def sampleMining (n : Node) : Mining Node :=
  ⟨⟨sampleWorld n, { isIncome := true }⟩, ⟨0⟩⟩

/-- An answer without blocks. -/
def sampleObjectsMessage : Delivery := .responseGetObjects ⟨[], [], [], 0⟩

/-- If nothing was requested it leaves the miner paused, and the connection goes on. -/
theorem pause_is_kept : ∃ n, sampleNode ∅ 0 = some n ∧
    (Session.handle sampleEnv (nodeCore sampleEnv 0 1)
      ((sampleMining n).session.receive sampleObjectsMessage) sampleObjectsMessage).isSome = true ∧
    ¬EachHandled sampleEnv (nodeCore sampleEnv 0 1) (fun s _ s' => s'.miner = s.miner) (sampleMining n)
      [.deliver sampleObjectsMessage] := by
  have h : (sampleNode ∅ 0).map (fun n => (handle sampleEnv (nodeCore sampleEnv 0 1)
      { sampleMining n with session := (sampleMining n).session.receive sampleObjectsMessage }
      sampleObjectsMessage).map Mining.miner) = some (some ⟨1⟩) := by decide +kernel
  obtain ⟨n, hn, hhandle⟩ := Option.map_eq_some_iff.mp h
  obtain ⟨s', hs', hminer⟩ := Option.map_eq_some_iff.mp hhandle
  refine ⟨n, hn, ?_, fun hkept => ?_⟩
  · have hsession := @handle_session _ sampleEnv (nodeCore sampleEnv 0 1)
      { sampleMining n with session := (sampleMining n).session.receive sampleObjectsMessage }
      sampleObjectsMessage
    rw [hs', Option.map_some] at hsession
    exact Option.isSome_iff_exists.mpr ⟨_, hsession.symm⟩
  have hsame : s'.miner = ⟨0⟩ := (hkept s' hs').1
  rw [hminer] at hsame
  exact absurd hsame (by decide)

end Mining

end Boolberry
