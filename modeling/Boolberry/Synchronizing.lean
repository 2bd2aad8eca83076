import Boolberry.ProtocolHandler

/-!
# Synchronizing connections move on

Sync data is ignored by a connection that is synchronizing, so such a connection needs a step
that is still to come: a callback, or an answer of the peer. The final condition of
`request_missing_objects` fails where a peer gives as its height the very height of the last id it sent,
and its callers do not look at that. `handle_response_chain_entry` also returns without a change when the
core is busy; the lock that is held during a batch keeps every handler from seeing that.
-/

namespace Boolberry
open KeyValue

namespace ConnectionContext

/-- A callback was requested or a request posted, and neither has come back. -/
def Awaits (c : ConnectionContext) : Prop :=
  0 < c.callbacks ∨
    ∃ n ∈ c.unanswered, n.isRequestChain = true ∨ n.isRequestGetObjects = true

/-- An open connection that is synchronizing has a step to come. -/
def Moves (c : ConnectionContext) : Prop :=
  c.dropped = true ∨ c.state ≠ .synchronizing ∨ c.Awaits

/-- There is something to request, or the final condition of `request_missing_objects` holds. -/
def HasNext (c : ConnectionContext) : Prop :=
  c.neededObjects ≠ [] ∨ c.lastResponseHeight < c.remoteBlockchainHeight - 1 ∨
    c.lastResponseHeight = c.remoteBlockchainHeight - 1 ∧ c.requestedObjects = ∅

instance (c : ConnectionContext) : Decidable c.Moves :=
  inferInstanceAs (Decidable (_ ∨ _ ∨ _ ∨ _))

end ConnectionContext

namespace Session

variable {σ : Type}

def Moves (s : Session σ) : Prop := s.context.Moves

instance (s : Session σ) : Decidable s.Moves := inferInstanceAs (Decidable s.context.Moves)

theorem moves_dropConnection (s : Session σ) : s.dropConnection.Moves := Or.inl rfl

theorem moves_dropConnection_addIpFail (s : Session σ) : s.dropConnection.addIpFail.Moves := Or.inl rfl

theorem moves_setState {s : Session σ} {state : ConnectionState} (h : state ≠ .synchronizing) :
    (s.setState state).Moves := Or.inr (Or.inl h)

theorem moves_postRequestChain (s : Session σ) (ids : List Hash) :
    (s.postRequest (.requestChain ids)).Moves :=
  Or.inr (Or.inr (Or.inr ⟨_, List.mem_append_right _ (List.mem_singleton_self _), Or.inl rfl⟩))

theorem moves_postRequestGetObjects (s : Session σ) (req : NotifyRequestGetObjects) :
    (s.postRequest (.requestGetObjects req)).Moves :=
  Or.inr (Or.inr (Or.inr ⟨_, List.mem_append_right _ (List.mem_singleton_self _), Or.inr rfl⟩))

theorem checkStopFlagAndExit_eq {s s' : Session σ} {check : StopCheck}
    (h : s.checkStopFlagAndExit check = some s') : s.world.stop check = true ∧ s' = s.dropConnection := by
  unfold checkStopFlagAndExit at h
  split_ifs at h with hstop
  cases h
  exact ⟨hstop, rfl⟩

theorem checkStopFlagAndExit_none {s : Session σ} {check : StopCheck}
    (h : s.checkStopFlagAndExit check = none) : s.world.stop check = false := by
  unfold checkStopFlagAndExit at h
  split_ifs at h with hstop
  exact Bool.eq_false_iff.mpr hstop

section Handlers

variable (E : Env) (C : ProtocolCore σ)

theorem onCallback_moves (s : Session σ) :
    (onCallback C s).Moves ↔ s.Moves ∨ s.context.callbackRequestCount ≠ 0 := by
  unfold onCallback callIfNoBatchExclusiveOperation
  by_cases hcount : s.context.callbackRequestCount = 0
  · rw [if_pos hcount]
    exact ⟨Or.inl, fun h => h.resolve_right (not_not.mpr hcount)⟩
  · rw [if_neg hcount]
    refine iff_of_true ?_ (Or.inr hcount)
    dsimp only
    split_ifs with hstate hbusy
    · exact moves_setState (by decide)
    · exact moves_postRequestChain _ _
    · exact Or.inr (Or.inl hstate)

theorem processPayloadSyncData_moves {s : Session σ} (hshd : CoreSyncData) (isInital : Bool)
    (h : s.Moves) : (processPayloadSyncData C hshd isInital s).2.Moves := by
  unfold processPayloadSyncData callIfNoBatchExclusiveOperation processSyncData
  dsimp only
  split_ifs with hbefore hsync hown hbusy hhave hzone
  · exact h
  · exact h
  · exact moves_dropConnection _
  · exact moves_setState (by decide)
  · exact moves_setState (by decide)
  · exact h
  · exact Or.inr (Or.inr (Or.inl (Nat.succ_pos _)))

theorem requestMissingObjects_moves (checkHavingBlocks : Bool) (s : Session σ) :
    (requestMissingObjects C checkHavingBlocks s).2.Moves ↔ s.Moves ∨ s.context.HasNext := by
  unfold requestMissingObjects callIfNoBatchExclusiveOperation
  dsimp only
  split_ifs with hneeded hheight hbusy hfinal
  · exact iff_of_true (moves_postRequestGetObjects _ _) (Or.inr (Or.inl hneeded))
  · exact iff_of_true (moves_setState (by decide)) (Or.inr (Or.inr (Or.inl hheight)))
  · exact iff_of_true (moves_postRequestChain _ _) (Or.inr (Or.inr (Or.inl hheight)))
  · exact iff_of_true (moves_setState (by decide))
      (Or.inr (Or.inr (Or.inr ⟨hfinal.1, hfinal.2.2⟩)))
  · -- nothing is changed
    refine ⟨Or.inl, fun h => h.resolve_right ?_⟩
    rintro (hnext | hnext | hnext)
    · exact hneeded hnext
    · exact hheight hnext
    · exact hfinal ⟨hnext.1, not_not.mp hneeded, hnext.2⟩

/-- Taking transactions either leaves the connection alone or drops it. -/
theorem handleTxs_moves (keptByBlock : Bool) (txs : List Blob) {s : Session σ} (h : s.Moves) :
    (handleTxs C keptByBlock txs s).2.Moves := by
  induction txs generalizing s with
  | nil => exact h
  | cons txBlob l ih =>
    unfold handleTxs
    dsimp only
    split_ifs with hfailed
    · exact moves_dropConnection _
    · exact ih h

theorem handleNotifyNewBlock_moves {s s' : Session σ} (arg : NotifyNewBlock) (h : s.Moves)
    (hs : handleNotifyNewBlock C arg s = some s') : s'.Moves := by
  have htxs := handleTxs_moves C true arg.b.txs h
  unfold handleNotifyNewBlock at hs
  split_ifs at hs with htakes
  · rcases hr : handleTxs C true arg.b.txs s with ⟨_ | _, s₁⟩ <;> rw [hr] at hs htxs <;> dsimp only at hs
    · cases hs
      exact htxs
    · cases hb : C.handleIncomingBlock s₁.world.core arg.b.block with
      | none =>
        rw [hb] at hs
        cases hs
      | some r =>
        rw [hb] at hs
        dsimp only at hs
        split_ifs at hs <;> cases hs
        · exact moves_dropConnection _
        · exact htxs
        · exact moves_postRequestChain _ _
        · exact htxs
  · cases hs
    exact h

theorem handleNotifyNewTransactions_moves (txs : List Blob) {s : Session σ} (h : s.Moves) :
    (handleNotifyNewTransactions C txs s).Moves := by
  unfold handleNotifyNewTransactions
  split_ifs
  · exact handleTxs_moves C false txs h
  · exact h

theorem handleRequestChain_moves (blockIds : List Hash) {s : Session σ} (h : s.Moves) :
    (handleRequestChain E C blockIds s).Moves := by
  unfold handleRequestChain callIfNoBatchExclusiveOperation
  split_ifs
  · exact h
  · split <;> exact h
  · exact h

theorem handleRequestGetObjects_moves (arg : NotifyRequestGetObjects) {s : Session σ} (h : s.Moves) :
    (handleRequestGetObjects C arg s).Moves := by
  unfold handleRequestGetObjects
  dsimp only
  split_ifs
  · exact moves_dropConnection _
  · exact moves_dropConnection _
  · exact moves_dropConnection _
  · exact h
  · exact moves_dropConnection _
  · exact h

end Handlers

section ChainEntry

variable (C : ProtocolCore σ)

theorem addNeeded_addNeeded (s : Session σ) (ids ids' : List Hash) :
    (s.addNeeded ids).addNeeded ids' = s.addNeeded (ids ++ ids') := by
  simp [addNeeded]

theorem collectNeeded_go {i : ℕ} {ids : List Hash} {s : Session σ}
    (h : ∀ k < ids.length, s.world.stop (.chainEntry (i + k)) = false) :
    collectNeeded C i ids s =
      (true, s.addNeeded (ids.filter fun id => !C.haveBlock s.world.core id)) := by
  induction ids generalizing i s with
  | nil => simp [collectNeeded, addNeeded]
  | cons id l ih =>
    have hfirst : s.checkStopFlagAndExit (.chainEntry i) = none := if_neg (by simpa using h 0 (by simp))
    have hrest : ∀ k < l.length, s.world.stop (.chainEntry (i + 1 + k)) = false := by
      intro k hk
      rw [add_assoc, add_comm 1 k]
      exact h (k + 1) (by simpa using hk)
    unfold collectNeeded
    rw [hfirst]
    dsimp only
    split_ifs with hhave
    · rw [ih hrest, List.filter_cons_of_neg (by simpa using hhave)]
    · have hl := ih (s := s.addNeeded [id]) hrest
      rw [hl, addNeeded_addNeeded, List.filter_cons_of_pos (by simpa using hhave)]
      rfl

theorem collectNeeded_stop {i : ℕ} {ids : List Hash} {s : Session σ}
    (h : ∃ k < ids.length, s.world.stop (.chainEntry (i + k)) = true) :
    ∃ s', collectNeeded C i ids s = (false, s') ∧ s'.context.dropped = true := by
  induction ids generalizing i s with
  | nil =>
    obtain ⟨k, hk, -⟩ := h
    exact absurd hk (Nat.not_lt_zero k)
  | cons id l ih =>
    unfold collectNeeded
    cases hstop : s.checkStopFlagAndExit (.chainEntry i) with
    | some s' =>
      obtain ⟨-, rfl⟩ := checkStopFlagAndExit_eq hstop
      exact ⟨_, rfl, rfl⟩
    | none =>
      have hclear := checkStopFlagAndExit_none hstop
      have hrest : ∃ k < l.length, s.world.stop (.chainEntry (i + 1 + k)) = true := by
        obtain ⟨k, hk, hset⟩ := h
        cases k with
        | zero =>
          rw [Nat.add_zero, hclear] at hset
          cases hset
        | succ k =>
          refine ⟨k, by simpa using hk, ?_⟩
          rwa [add_assoc, add_comm 1 k]
      dsimp only
      split_ifs with hhave
      · exact ih hrest
      · exact ih hrest

theorem requestNeeded_moves (ids : List Hash) (s : Session σ) :
    (requestNeeded C ids s).Moves ↔ s.Moves ∨
      (∃ i < ids.length, s.world.stop (.chainEntry i) = true) ∨
      (s.addNeeded (ids.filter fun id => !C.haveBlock s.world.core id)).context.HasNext := by
  unfold requestNeeded
  by_cases hstop : ∃ i < ids.length, s.world.stop (.chainEntry i) = true
  · obtain ⟨s', hs', hdropped⟩ := collectNeeded_stop C (i := 0) (s := s) (by simpa using hstop)
    rw [hs']
    exact iff_of_true (Or.inl hdropped) (Or.inr (Or.inl hstop))
  · have hgo : ∀ k < ids.length, s.world.stop (.chainEntry (0 + k)) = false := by
      intro k hk
      rw [Nat.zero_add]
      exact Bool.eq_false_iff.mpr fun hset => hstop ⟨k, hk, hset⟩
    rw [collectNeeded_go C hgo]
    refine (requestMissingObjects_moves C false _).trans ?_
    exact or_congr_right ⟨Or.inr, fun h => h.resolve_left hstop⟩

/-- The answer does not leave the connection as it is: there are no ids in it or the first is unknown,
and the connection is dropped; or the core is not busy, and the connection is dropped later or has
something to go on with. -/
def ChainEntryServed (arg : NotifyResponseChainEntry) (s : Session σ) : Prop :=
  ∀ first, arg.blockIds.head? = some first →
    s.world.exclusiveBatchActive = false ∧
      (C.haveBlock s.world.core first = true →
        arg.totalHeight < arg.startHeight + UInt64.ofNat arg.blockIds.length - 1 ∨
        (∃ i < arg.blockIds.length, s.world.stop (.chainEntry i) = true) ∨
        ((s.withHeights arg).addNeeded
          (arg.blockIds.filter fun id => !C.haveBlock s.world.core id)).context.HasNext)

theorem processChainEntry_moves {arg : NotifyResponseChainEntry} {first : Hash} {s : Session σ}
    (hfirst : C.haveBlock s.world.core first = true) :
    (processChainEntry C arg first s).Moves ↔ s.Moves ∨
      arg.totalHeight < arg.startHeight + UInt64.ofNat arg.blockIds.length - 1 ∨
      (∃ i < arg.blockIds.length, s.world.stop (.chainEntry i) = true) ∨
      ((s.withHeights arg).addNeeded
        (arg.blockIds.filter fun id => !C.haveBlock s.world.core id)).context.HasNext := by
  unfold processChainEntry
  rw [if_pos hfirst]
  dsimp only
  by_cases hheight : (s.withHeights arg).context.remoteBlockchainHeight <
      (s.withHeights arg).context.lastResponseHeight
  · rw [if_pos hheight]
    have hdropped := moves_dropConnection (s.withHeights arg)
    exact iff_of_true ((requestNeeded_moves C _ _).mpr (Or.inl hdropped)) (Or.inr (Or.inl hheight))
  · rw [if_neg hheight]
    refine (requestNeeded_moves C _ _).trans ?_
    exact or_congr_right ⟨Or.inr, fun h => h.resolve_left hheight⟩

theorem handleResponseChainEntry_moves (arg : NotifyResponseChainEntry) (s : Session σ) :
    (handleResponseChainEntry C arg s).Moves ↔ s.Moves ∨ ChainEntryServed C arg s := by
  unfold handleResponseChainEntry ChainEntryServed callIfNoBatchExclusiveOperation
  cases hids : arg.blockIds with
  | nil => exact iff_of_true (moves_dropConnection_addIpFail s) (Or.inr fun first h => by cases h)
  | cons first l =>
    dsimp only
    by_cases hbusy : s.world.exclusiveBatchActive = true
    · -- the answer is ignored
      rw [if_pos hbusy]
      refine ⟨Or.inl, fun h => h.resolve_right fun hserved => ?_⟩
      have hidle := (hserved first rfl).1
      rw [hbusy] at hidle
      cases hidle
    · rw [if_neg hbusy]
      dsimp only
      by_cases hfirst : C.haveBlock s.world.core first = true
      · rw [processChainEntry_moves C hfirst, hids]
        refine or_congr_right ⟨fun h first' hf => ?_, fun h => (h first rfl).2 hfirst⟩
        cases hf
        exact ⟨Bool.eq_false_iff.mpr hbusy, fun _ => h⟩
      · have hdrop : processChainEntry C arg first s = s.dropConnection.addIpFail := by
          unfold processChainEntry
          rw [if_neg hfirst]
        rw [hdrop]
        refine iff_of_true (moves_dropConnection_addIpFail s) (Or.inr fun first' hf => ?_)
        cases hf
        exact ⟨Bool.eq_false_iff.mpr hbusy, fun h => absurd h hfirst⟩

end ChainEntry

section Objects

variable (E : Env) (C : ProtocolCore σ)

/-- The first loop only strikes off what was requested, or the connection is dropped or idle. -/
theorem prevalidate_spec (i : ℕ) (entries : List BlockCompleteEntry) (s : Session σ) :
    (∃ requested, prevalidate E C i entries s =
      (true, { s with context := { s.context with requestedObjects := requested } })) ∨
    ∃ s', prevalidate E C i entries s = (false, s') ∧ s'.Moves := by
  induction entries generalizing i s with
  | nil => exact Or.inl ⟨_, rfl⟩
  | cons entry l ih =>
    unfold prevalidate
    cases hstop : s.checkStopFlagAndExit (.prevalidation i) with
    | some s' =>
      obtain ⟨-, rfl⟩ := checkStopFlagAndExit_eq hstop
      exact Or.inr ⟨_, rfl, moves_dropConnection s⟩
    | none =>
      cases hb : parseAndValidateBlockFromBlob entry.block with
      | none => exact Or.inr ⟨_, rfl, moves_dropConnection_addIpFail s⟩
      | some b =>
        dsimp only
        split_ifs with hsecond hrequested htxs
        · exact Or.inr ⟨_, rfl, Or.inr (Or.inl nofun)⟩
        · exact Or.inr ⟨_, rfl, moves_dropConnection s⟩
        · exact ih (i + 1) { s with context := { s.context with
            requestedObjects := s.context.requestedObjects.erase (getBlockHash E b) } }
        · exact Or.inr ⟨_, rfl, moves_dropConnection s⟩

/-- Taking a block's transactions leaves the connection as it is or drops it. -/
theorem handleBlockTxs_spec (i j : ℕ) (txs : List Blob) (s : Session σ) :
    (∃ s', handleBlockTxs C i j txs s = (true, s') ∧ s'.context = s.context) ∨
    ∃ s', handleBlockTxs C i j txs s = (false, s') ∧ s'.context.dropped = true := by
  induction txs generalizing j s with
  | nil => exact Or.inl ⟨s, rfl, rfl⟩
  | cons txBlob l ih =>
    unfold handleBlockTxs
    cases hstop : s.checkStopFlagAndExit (.tx i j) with
    | some s' =>
      obtain ⟨-, rfl⟩ := checkStopFlagAndExit_eq hstop
      exact Or.inr ⟨_, rfl, rfl⟩
    | none =>
      dsimp only
      split_ifs with hfailed
      · exact Or.inr ⟨_, rfl, rfl⟩
      · exact ih (j + 1) (s.setCore _)

theorem handleBlocks_spec {i : ℕ} {entries : List BlockCompleteEntry} {s : Session σ}
    {r : Bool × Session σ} (h : handleBlocks C i entries s = some r) :
    (∃ s', r = (true, s') ∧ s'.context = s.context) ∨
    ∃ s', r = (false, s') ∧ s'.context.dropped = true := by
  induction entries generalizing i s with
  | nil =>
    cases h
    exact Or.inl ⟨s, rfl, rfl⟩
  | cons entry l ih =>
    unfold handleBlocks at h
    cases hstop : s.checkStopFlagAndExit (.block i) with
    | some s' =>
      obtain ⟨-, rfl⟩ := checkStopFlagAndExit_eq hstop
      rw [hstop] at h
      cases h
      exact Or.inr ⟨_, rfl, rfl⟩
    | none =>
      rw [hstop] at h
      obtain ⟨s₁, hr, hsame⟩ | ⟨s₁, hr, hdropped⟩ := handleBlockTxs_spec C i 0 entry.txs s <;>
        rw [hr] at h <;> dsimp only at h
      · cases hb : C.handleIncomingBlock s₁.world.core entry.block with
        | none =>
          rw [hb] at h
          cases h
        | some x =>
          rw [hb] at h
          dsimp only at h
          split_ifs at h with hfailed horphaned
          · cases h
            exact Or.inr ⟨_, rfl, rfl⟩
          · cases h
            exact Or.inr ⟨_, rfl, rfl⟩
          · have hl := ih (s := s₁.setCore x.2) h
            rw [← hsame]
            exact hl
      · cases h
        exact Or.inr ⟨_, rfl, hdropped⟩

/-- The peer sent just the blocks that were requested, and the core took them. -/
def Accepted (arg : NotifyResponseGetObjects) (s : Session σ) : Prop :=
  ∃ s₁ s₂, prevalidate E C 0 arg.blocks s = (true, s₁) ∧ s₁.context.requestedObjects = ∅ ∧
    handleBlocks C 0 arg.blocks (s₁.setExclusiveBatch true) = some (true, s₂)

/-- The answer does not leave the connection as it is: the connection is dropped or set idle, or it has
something to go on with. -/
def ObjectsServed (arg : NotifyResponseGetObjects) (s : Session σ) : Prop :=
  arg.currentBlockchainHeight < s.context.lastResponseHeight ∨ s.world.exclusiveBatchActive = true ∨
    ¬ Accepted E C arg (s.withRemoteHeight arg.currentBlockchainHeight) ∨
    ({ (s.withRemoteHeight arg.currentBlockchainHeight).context with
      requestedObjects := ∅ } : ConnectionContext).HasNext

theorem processObjects_moves {arg : NotifyResponseGetObjects} {s s' : Session σ}
    (h : processObjects E C arg s = some s') :
    s'.Moves ↔ s.Moves ∨ ¬ Accepted E C arg s ∨
      ({ s.context with requestedObjects := ∅ } : ConnectionContext).HasNext := by
  unfold processObjects at h
  obtain ⟨requested, hpre⟩ | ⟨s₁, hpre, hmoves⟩ := prevalidate_spec E C 0 arg.blocks s
  · rw [hpre] at h
    dsimp only at h
    by_cases hrequested : requested = ∅
    · subst hrequested
      rw [if_neg (not_not.mpr rfl)] at h
      cases hb : handleBlocks C 0 arg.blocks (setExclusiveBatch
          { s with context := { s.context with requestedObjects := ∅ } } true) with
      | none =>
        rw [hb] at h
        cases h
      | some r =>
        rw [hb] at h
        obtain ⟨s₂, rfl, hsame⟩ | ⟨s₂, rfl, hdropped⟩ := handleBlocks_spec C hb
        · -- everything was accepted
          have haccepted : Accepted E C arg s := ⟨_, _, hpre, rfl, hb⟩
          dsimp only at h
          cases h
          rw [requestMissingObjects_moves]
          have hcontext : (s₂.setExclusiveBatch false).context =
              { s.context with requestedObjects := ∅ } := hsame
          rw [Moves, hcontext]
          exact or_congr_right ⟨Or.inr, fun h => h.resolve_left (not_not.mpr haccepted)⟩
        · dsimp only at h
          cases h
          refine iff_of_true (Or.inl hdropped) (Or.inr (Or.inl ?_))
          rintro ⟨s₁, s₂, hpre', -, hb'⟩
          rw [hpre] at hpre'
          cases hpre'
          rw [hb] at hb'
          cases hb'
    · rw [if_pos hrequested] at h
      cases h
      refine iff_of_true (moves_dropConnection _) (Or.inr (Or.inl ?_))
      rintro ⟨s₁, s₂, hpre', hempty, -⟩
      rw [hpre] at hpre'
      cases hpre'
      exact hrequested hempty
  · rw [hpre] at h
    cases h
    refine iff_of_true hmoves (Or.inr (Or.inl ?_))
    rintro ⟨s₁, s₂, hpre', -⟩
    rw [hpre] at hpre'
    cases hpre'

theorem handleResponseGetObjects_moves {arg : NotifyResponseGetObjects} {s s' : Session σ}
    (h : handleResponseGetObjects E C arg s = some s') :
    s'.Moves ↔ s.Moves ∨ ObjectsServed E C arg s := by
  unfold handleResponseGetObjects callIfNoBatchExclusiveOperation at h
  unfold ObjectsServed
  by_cases hheight : arg.currentBlockchainHeight < s.context.lastResponseHeight
  · rw [if_pos hheight] at h
    cases h
    exact iff_of_true (moves_dropConnection s) (Or.inr (Or.inl hheight))
  · rw [if_neg hheight] at h
    dsimp only at h
    by_cases hbusy : s.world.exclusiveBatchActive = true
    · rw [if_pos (show (s.withRemoteHeight arg.currentBlockchainHeight).world.exclusiveBatchActive =
        true from hbusy)] at h
      cases h
      exact iff_of_true (moves_setState nofun) (Or.inr (Or.inr (Or.inl hbusy)))
    · rw [if_neg (show ¬(s.withRemoteHeight arg.currentBlockchainHeight).world.exclusiveBatchActive =
        true from hbusy)] at h
      refine (processObjects_moves E C h).trans (or_congr_right ?_)
      exact ⟨fun h => Or.inr (Or.inr h), fun h => (h.resolve_left hheight).resolve_left hbusy⟩

end Objects

section Runs

variable (E : Env) (C : ProtocolCore σ)

/-- The step does not use up the last outstanding step without another one: a callback finds the
request counted, and an answer does not leave the connection as it is. -/
def GoesOn (s : Session σ) : Event σ → Prop
  | .deliver .callback => s.context.callbacks = 0 ∨ (s.receive .callback).Moves ∨
      s.context.callbackRequestCount ≠ 0
  | .deliver (.responseChainEntry arg) => (s.receive (.responseChainEntry arg)).Moves ∨
      ChainEntryServed C arg (s.receive (.responseChainEntry arg))
  | .deliver (.responseGetObjects arg) => (s.receive (.responseGetObjects arg)).Moves ∨
      ObjectsServed E C arg (s.receive (.responseGetObjects arg))
  | _ => True

theorem step_moves_iff {s s' : Session σ} {e : Event σ} (h : s.Moves) (hs : step E C s e = some s') :
    s'.Moves ↔ GoesOn E C s e := by
  cases e with
  | elsewhere w =>
    cases hs
    exact iff_of_true h trivial
  | deliver d =>
    unfold step at hs
    dsimp only at hs
    split_ifs at hs with hskip
    · -- no handler is called
      cases hs
      refine iff_of_true h ?_
      rcases hskip with hdropped | ⟨hd, hnone⟩
      · cases d with
        | callback => exact Or.inr (Or.inl (Or.inl hdropped))
        | responseChainEntry arg => exact Or.inl (Or.inl hdropped)
        | responseGetObjects arg => exact Or.inl (Or.inl hdropped)
        | _ => trivial
      · cases d with
        | callback => exact Or.inl hnone
        | _ => cases hd
    · cases d with
      | callback =>
        cases hs
        have hsome : ¬s.context.callbacks = 0 := fun hnone => hskip (Or.inr ⟨rfl, hnone⟩)
        refine (onCallback_moves C _).trans ⟨Or.inr, fun hgoes => hgoes.resolve_left hsome⟩
      | syncData hshd isInital dropIfRefused =>
        cases hs
        refine iff_of_true ?_ trivial
        split_ifs
        · exact moves_dropConnection _
        · exact processPayloadSyncData_moves C hshd isInital h
      | newBlock arg => exact iff_of_true (handleNotifyNewBlock_moves C arg h hs) trivial
      | newTransactions txs =>
        cases hs
        exact iff_of_true (handleNotifyNewTransactions_moves C txs h) trivial
      | requestChain blockIds =>
        cases hs
        exact iff_of_true (handleRequestChain_moves E C blockIds h) trivial
      | requestGetObjects arg =>
        cases hs
        exact iff_of_true (handleRequestGetObjects_moves C arg h) trivial
      | responseChainEntry arg =>
        cases hs
        exact handleResponseChainEntry_moves C arg _
      | responseGetObjects arg => exact handleResponseGetObjects_moves E C hs

/-- Every step of a run goes on, as far as its handlers return. -/
def GoesOnThroughout : Session σ → List (Event σ) → Prop
  | _, [] => True
  | s, e :: l => ∀ s', step E C s e = some s' → GoesOn E C s e ∧ GoesOnThroughout s' l

theorem states_move_iff {s : Session σ} (h : s.Moves) (es : List (Event σ)) :
    (∀ s' ∈ states E C s es, s'.Moves) ↔ GoesOnThroughout E C s es := by
  induction es generalizing s with
  | nil => exact iff_of_true (fun s' hs' => absurd hs' List.not_mem_nil) trivial
  | cons e l ih =>
    unfold states GoesOnThroughout
    cases hs : step E C s e with
    | none => exact iff_of_true (fun s' hs' => absurd hs' List.not_mem_nil) fun s' hs' => by cases hs'
    | some s₁ =>
      have hstep := step_moves_iff E C h hs
      constructor
      · intro hall s' hs'
        cases hs'
        have hfirst : s₁.Moves := hall s₁ List.mem_cons_self
        exact ⟨hstep.mp hfirst, (ih hfirst).mp fun s' hs' => hall s' (List.mem_cons_of_mem _ hs')⟩
      · intro hgoes s' hs'
        obtain ⟨hfirst, hrest⟩ := hgoes s₁ rfl
        have hmoves := hstep.mpr hfirst
        rcases List.mem_cons.mp hs' with rfl | hs'
        · exact hmoves
        · exact (ih hmoves).mpr hrest s' hs'

/-- In a run of a new connection, every state that is reached and open and synchronizing has an
outstanding step, exactly when every step goes on. -/
theorem new_connection_moves_iff (w : World σ) (isIncome : Bool) (es : List (Event σ)) :
    (∀ s ∈ states E C ⟨w, { isIncome }⟩ es, s.Moves) ↔
      GoesOnThroughout E C ⟨w, { isIncome }⟩ es :=
  states_move_iff E C (Or.inr (Or.inl fun h => by cases h)) es

end Runs

def sampleWorld (n : Node) : World Node where
  core := n
  exclusiveBatchActive := false
  synchronized := true
  beenSynchronized := true
  stop := fun _ => false

/-- A peer with three blocks, the upper two unknown here, shakes hands and is asked for its chain. It answers
with a chain of one block and gives it the height one. -/
def sampleHeightRun : List (Event Node) :=
  [.deliver (.syncData ⟨3, 5, 0, []⟩ true true), .deliver .callback,
    .deliver (.responseChainEntry ⟨1, 1, [getBlockHash sampleEnv generateGenesisBlock]⟩)]

/-- The connection stays open and synchronizing with nothing to come. -/
theorem connection_left : ∃ n, sampleNode ∅ 0 = some n ∧
    ∃ s ∈ states sampleEnv (nodeCore sampleEnv 0 1) ⟨sampleWorld n, { isIncome := true }⟩
      sampleHeightRun, ¬ s.Moves := by
  have h : (sampleNode ∅ 0).map (fun n =>
      (states sampleEnv (nodeCore sampleEnv 0 1) ⟨sampleWorld n, { isIncome := true }⟩
        sampleHeightRun).getLast?.map fun s => decide s.Moves) = some (some false) := by
    decide +kernel
  obtain ⟨n, hn, hrun⟩ := Option.map_eq_some_iff.mp h
  obtain ⟨s, hs, hleft⟩ := Option.map_eq_some_iff.mp hrun
  exact ⟨n, hn, s, List.mem_of_getLast? hs, of_decide_eq_false hleft⟩

end Session

end Boolberry
