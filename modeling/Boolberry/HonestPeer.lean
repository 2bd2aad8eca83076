import Boolberry.BatchLock
import Boolberry.Outcomes
import Boolberry.Synchronizing

/-!
# A peer that answers correctly

A peer with a fixed chain that answers in order, completely and with blocks of that chain does
not get dropped for what it answers, as long as the core does not forget the blocks whose ids
the peer was asked with. A handler gets the batch lock before it looks at the flag, so none of
them is turned away by a batch, and what starts a synchronization finds both lists empty. A core
forgets blocks in a switch that fails to pop one: it is not rolled back.
-/

namespace Boolberry
open KeyValue

/-- The chain of a peer: its blocks under their ids. -/
structure PeerChain where
  blocks : List (Hash × BlockCompleteEntry)

namespace PeerChain

def ids (p : PeerChain) : List Hash := p.blocks.map Prod.fst

def entryOf (p : PeerChain) (id : Hash) : Option BlockCompleteEntry :=
  (p.blocks.find? fun x => x.1 == id).map Prod.snd

/-- The blocks are well formed, have the ids they are under, and come with their transactions. -/
structure Valid (E : Env) (p : PeerChain) : Prop where
  nodup : p.ids.Nodup
  block : ∀ x ∈ p.blocks, ∃ b ∈ parseAndValidateBlockFromBlob x.2.block,
    getBlockHash E b = x.1 ∧ b.txHashes.length = x.2.txs.length

/-- A run of ids of the chain, the first of which was asked with. -/
def AnswersChain (p : PeerChain) (blockIds : List Hash) (arg : NotifyResponseChainEntry) : Prop :=
  arg.blockIds <+: p.ids.drop arg.startHeight.toNat ∧ arg.blockIds.head? ∈ blockIds.map some ∧
    arg.totalHeight = UInt64.ofNat p.blocks.length

/-- The blocks that were asked for, all and in order. -/
def AnswersObjects (p : PeerChain) (req : NotifyRequestGetObjects)
    (arg : NotifyResponseGetObjects) : Prop :=
  arg.blocks.map some = req.blocks.map p.entryOf ∧
    arg.currentBlockchainHeight = UInt64.ofNat p.blocks.length

instance (p : PeerChain) (blockIds : List Hash) (arg : NotifyResponseChainEntry) :
    Decidable (p.AnswersChain blockIds arg) := inferInstanceAs (Decidable (_ ∧ _ ∧ _))

instance (p : PeerChain) (req : NotifyRequestGetObjects) (arg : NotifyResponseGetObjects) :
    Decidable (p.AnswersObjects req arg) := inferInstanceAs (Decidable (_ ∧ _))

theorem Valid.of_entryOf {E : Env} {p : PeerChain} {id : Hash} {entry : BlockCompleteEntry}
    (hp : p.Valid E) (h : p.entryOf id = some entry) :
    ∃ b, parseAndValidateBlockFromBlob entry.block = some b ∧ getBlockHash E b = id ∧
      b.txHashes.length = entry.txs.length := by
  obtain ⟨x, hx, rfl⟩ := Option.map_eq_some_iff.mp h
  have hid : x.1 = id := by simpa using List.find?_some hx
  obtain ⟨b, hb, hhash, hlen⟩ := hp.block x (List.mem_of_find?_eq_some hx)
  exact ⟨b, hb, hhash.trans hid, hlen⟩

end PeerChain

/-- What the core keeps to: the ids of its history are those of blocks it has. -/
structure SoundCore {σ : Type} (C : ProtocolCore σ) (I : σ → Prop) : Prop where
  history : ∀ c, I c → ∀ id ∈ C.getShortChainHistory c, C.haveBlock c id = true
  tx : ∀ c blob k, I c → I (C.handleIncomingTx c blob k).2
  block : ∀ c blob r, I c → C.handleIncomingBlock c blob = some r → I r.2

section Core

variable {σ : Type}

/-- A core whose clock is part of its state. -/
def clockedCore (C : ℕ → ProtocolCore σ) : ProtocolCore (ℕ × σ) where
  haveBlock c := (C c.1).haveBlock c.2
  getCurrentBlockchainHeight c := (C c.1).getCurrentBlockchainHeight c.2
  getTopCheckpointHeight c := (C c.1).getTopCheckpointHeight c.2
  getShortChainHistory c := (C c.1).getShortChainHistory c.2
  findBlockchainSupplement c := (C c.1).findBlockchainSupplement c.2
  handleGetObjects c := (C c.1).handleGetObjects c.2
  handleIncomingTx c txBlob keptByBlock :=
    let r := (C c.1).handleIncomingTx c.2 txBlob keptByBlock
    (r.1, c.1, r.2)
  handleIncomingBlock c blockBlob :=
    ((C c.1).handleIncomingBlock c.2 blockBlob).map fun r => (r.1, c.1, r.2)

theorem SoundCore.clocked {C : ℕ → ProtocolCore σ} {I : σ → Prop} (h : ∀ now, SoundCore (C now) I) :
    SoundCore (clockedCore C) fun c => I c.2 where
  history c hc := (h c.1).history c.2 hc
  tx c txBlob keptByBlock hc := (h c.1).tx c.2 txBlob keptByBlock hc
  block c blockBlob r hc hr := by
    obtain ⟨x, hx, rfl⟩ := Option.map_eq_some_iff.mp hr
    exact (h c.1).block c.2 blockBlob x hc hx

theorem soundCore_nodeCore (E : Env) (cps : Checkpoints) (fuel now : ℕ) :
    SoundCore (nodeCore E now fuel) (Reachable E cps) where
  history n hn id hid := by
    have hne : blockIds E n.blocks ≠ [] := by
      intro hnil
      change id ∈ shortChainHistory (blockIds E n.blocks) at hid
      rw [hnil] at hid
      cases hid
    obtain ⟨heights, hlisted⟩ := shortChainHistory_spec hne
    have hmem : some id ∈ (shortChainHistory (blockIds E n.blocks)).map some := List.mem_map_of_mem hid
    rw [hlisted.listed] at hmem
    obtain ⟨k, -, hk⟩ := List.mem_map.mp hmem
    have hindex := (mem_blockIds_iff hn).mp (List.mem_of_getElem? hk)
    change (_ || _ || _) = true
    rw [Option.isSome_iff_ne_none.mpr hindex]
    rfl
  tx n txBlob keptByBlock hn := by
    change Reachable E cps (handleIncomingTxBlob E now n txBlob keptByBlock).2
    unfold handleIncomingTxBlob
    split_ifs
    · exact hn
    · cases parseAndValidateTxFromBlob txBlob with
      | none => exact hn
      | some tx =>
        have hrun : run E n [.transaction now tx keptByBlock] =
            some (handleIncomingTx E now n tx keptByBlock).2.2 := rfl
        exact hn.run hrun
  block n blockBlob r hn hr := by
    change handleIncomingBlockBlob E now fuel n blockBlob = some r at hr
    unfold handleIncomingBlockBlob at hr
    split_ifs at hr
    · cases hr
      exact hn
    · cases hb : parseAndValidateBlockFromBlob blockBlob with
      | none =>
        rw [hb] at hr
        cases hr
        exact hn
      | some b =>
        rw [hb] at hr
        obtain ⟨x, hx, rfl⟩ := Option.map_eq_some_iff.mp hr
        have hrun : run E n [.block now fuel b] = some x.2.2 := by
          simp only [run, Event.apply, hx, Option.map_some]
        exact hn.run hrun

end Core

namespace Session

variable {σ : Type}

/-- The ids that a chain is asked for with. -/
def chainRequest : Notification → Option (List Hash)
  | .requestChain ids => some ids
  | _ => none

def objectsRequest : Notification → Option NotifyRequestGetObjects
  | .requestGetObjects req => some req
  | _ => none

section Runs

variable (E : Env) (C : ProtocolCore σ) (p : PeerChain)

/-- The peer answers only what it was asked, the oldest request first. -/
def Honest (s : Session σ) : Delivery → Prop
  | .responseChainEntry arg =>
      ∃ ids ∈ s.context.unanswered.head?.bind chainRequest, p.AnswersChain ids arg
  | .responseGetObjects arg =>
      ∃ req ∈ s.context.unanswered.head?.bind objectsRequest, p.AnswersObjects req arg
  | _ => True

/-- The `k`-th block of an answer is not one that was requested. -/
def NotRequested (blocks : List BlockCompleteEntry) (s : Session σ) : Prop :=
  ∃ k < blocks.length, (prevalidate E C 0 (blocks.take k) s).1 = true ∧
    s.world.stop (.prevalidation k) = false ∧
    ∃ b ∈ (blocks[k]?).bind fun entry => parseAndValidateBlockFromBlob entry.block,
      ¬(k = 1 ∧ C.haveBlock s.world.core (getBlockHash E b) = true) ∧
      getBlockHash E b ∉ (prevalidate E C 0 (blocks.take k) s).2.context.requestedObjects

/-- The blocks of an answer are not all that were requested. -/
def NotAllRequested (blocks : List BlockCompleteEntry) (s : Session σ) : Prop :=
  (prevalidate E C 0 blocks s).1 = true ∧
    (prevalidate E C 0 blocks s).2.context.requestedObjects ≠ ∅

/-- The connection is dropped for one of the three violations of the protocol: an id to start from that
is unknown, a block that was not requested, or not all requested blocks. -/
def Violates (s : Session σ) : Delivery → Prop
  | .responseChainEntry arg => s.context.dropped = false ∧
      s.world.exclusiveBatchActive = false ∧
      ∃ first ∈ arg.blockIds.head?, C.haveBlock s.world.core first = false
  | .responseGetObjects arg => s.context.dropped = false ∧
      s.world.exclusiveBatchActive = false ∧
      ¬arg.currentBlockchainHeight < s.context.lastResponseHeight ∧
      let s := (s.receive (.responseGetObjects arg)).withRemoteHeight arg.currentBlockchainHeight
      NotRequested E C arg.blocks s ∨ NotAllRequested E C arg.blocks s
  | _ => False

/-- Nothing is left to ask for or to wait for. -/
def NothingLeft (c : ConnectionContext) : Prop := c.neededObjects = [] ∧ c.requestedObjects = ∅

/-- The handler of the delivery gets as far as `call_if_no_batch_exclusive_operation`. -/
def CallsUnderLock (s : Session σ) : Delivery → Prop
  | .callback => s.context.dropped = false ∧ s.context.callbacks ≠ 0 ∧
      s.context.callbackRequestCount ≠ 0 ∧ s.context.state = .synchronizing
  | .syncData hshd isInital _ => s.context.dropped = false ∧
      ¬(s.context.state = .beforHandshake ∧ isInital = false) ∧ s.context.state ≠ .synchronizing ∧
      ¬(s.world.beenSynchronized = false ∧ s.context.isIncome = false ∧ hshd.currentHeight = 1 ∧
        isInital = true)
  | .requestChain _ => s.context.dropped = false ∧ s.world.beenSynchronized = true
  | .responseChainEntry arg => s.context.dropped = false ∧ arg.blockIds ≠ []
  | .responseGetObjects arg => s.context.dropped = false ∧
      ¬arg.currentBlockchainHeight < s.context.lastResponseHeight
  | .newBlock _ | .newTransactions _ | .requestGetObjects _ => False

instance decidableCallsUnderLock (s : Session σ) : (d : Delivery) → Decidable (CallsUnderLock s d)
  | .callback | .syncData .. => inferInstanceAs (Decidable (_ ∧ _ ∧ _ ∧ _))
  | .requestChain _ | .responseChainEntry _ | .responseGetObjects _ =>
      inferInstanceAs (Decidable (_ ∧ _))
  | .newBlock _ | .newTransactions _ | .requestGetObjects _ => .isFalse id

/-- A connection and the lock that its handlers share with the other threads. -/
structure Shared (σ : Type) where
  lock : BatchLock
  session : Session σ

inductive SharedEvent (σ : Type) where
  | thread (t : ℕ) (a : BatchAct)
  | elsewhere (w : World σ)
  | deliver (d : Delivery)

/-- One step: another thread does something with the lock, or with the core and the flags, or a handler
of the connection runs, which waits for the lock if it needs it and has finished its own batch when it
returns. The flag of an active batch is that of the lock. -/
def Shared.step (m : Shared σ) : SharedEvent σ → Option (Shared σ)
  | .thread t a => (m.lock.step t a).map fun lock =>
      ⟨lock, m.session.setExclusiveBatch lock.exclusiveBatchActive⟩
  | .elsewhere w => some ⟨m.lock,
      { m.session with world := w }.setExclusiveBatch m.lock.exclusiveBatchActive⟩
  | .deliver d =>
      if m.lock.exclusiveBatchLock ≠ none ∧ CallsUnderLock m.session d then none
      else (Session.step E C m.session (.deliver d)).map fun s =>
        ⟨m.lock, s.setExclusiveBatch m.lock.exclusiveBatchActive⟩

/-- A new connection of a node whose threads are all outside. -/
def Shared.connect (w : World σ) (isIncome : Bool) : Shared σ :=
  ⟨{}, { world := w, context := { isIncome } : Session σ }.setExclusiveBatch false⟩

/-- `P` holds of each delivery. -/
def OnDelivery (P : Session σ → Delivery → Prop) (m : Shared σ) : SharedEvent σ → Prop
  | .deliver d => P m.session d
  | _ => True

/-- The ids that an unanswered chain request was made with stay known. -/
def StayKnown (m : Shared σ) : SharedEvent σ → Prop
  | .elsewhere w => ∀ n ∈ m.session.context.unanswered, ∀ ids ∈ chainRequest n, ∀ id ∈ ids,
      C.haveBlock m.session.world.core id = true → C.haveBlock w.core id = true
  | _ => True

/-- `P` holds at every step of a run, as far as its handlers return. -/
def Throughout (P : Shared σ → SharedEvent σ → Prop) : Shared σ → List (SharedEvent σ) → Prop
  | _, [] => True
  | m, e :: l => P m e ∧ ∀ m' ∈ Shared.step E C m e, Throughout P m' l

instance (c : ConnectionContext) : Decidable (NothingLeft c) := inferInstanceAs (Decidable (_ ∧ _))

instance decidableHonest (s : Session σ) : (d : Delivery) → Decidable (Honest p s d)
  | .responseChainEntry _ => inferInstanceAs (Decidable (∃ ids ∈ Option.bind _ _, _))
  | .responseGetObjects _ => inferInstanceAs (Decidable (∃ req ∈ Option.bind _ _, _))
  | .callback | .syncData .. | .newBlock _ | .newTransactions _ | .requestChain _
  | .requestGetObjects _ => .isTrue trivial

instance (blocks : List BlockCompleteEntry) (s : Session σ) : Decidable (NotRequested E C blocks s) :=
  inferInstanceAs (Decidable (∃ k < blocks.length, _ ∧ _ ∧ ∃ b ∈ Option.bind _ _, _ ∧ _))

instance (blocks : List BlockCompleteEntry) (s : Session σ) :
    Decidable (NotAllRequested E C blocks s) := inferInstanceAs (Decidable (_ ∧ _))

instance decidableViolates (s : Session σ) : (d : Delivery) → Decidable (Violates E C s d)
  | .responseChainEntry arg =>
      -- not by trying all ids
      have : Decidable (∃ first ∈ arg.blockIds.head?, C.haveBlock s.world.core first = false) :=
        Option.decidableExistsMem _
      inferInstanceAs (Decidable (_ ∧ _ ∧ ∃ first ∈ arg.blockIds.head?, _))
  | .responseGetObjects arg =>
      inferInstanceAs (Decidable (_ ∧ _ ∧ _ ∧ (NotRequested E C arg.blocks _ ∨ NotAllRequested E C arg.blocks _)))
  | .callback | .syncData .. | .newBlock _ | .newTransactions _ | .requestChain _
  | .requestGetObjects _ => .isFalse id

instance decidableOnDelivery (P : Session σ → Delivery → Prop) [∀ s d, Decidable (P s d)]
    (m : Shared σ) : (e : SharedEvent σ) → Decidable (OnDelivery P m e)
  | .deliver d => inferInstanceAs (Decidable (P m.session d))
  | .thread .. | .elsewhere _ => .isTrue trivial

instance decidableStayKnown (m : Shared σ) : (e : SharedEvent σ) → Decidable (StayKnown C m e)
  | .elsewhere w =>
      have (ids : List Hash) : Decidable (∀ id ∈ ids,
          C.haveBlock m.session.world.core id = true → C.haveBlock w.core id = true) :=
        List.decidableBAll _ ids
      inferInstanceAs (Decidable (∀ n ∈ m.session.context.unanswered, ∀ ids ∈ chainRequest n, _))
  | .thread .. | .deliver _ => .isTrue trivial

instance decidableThroughout (P : Shared σ → SharedEvent σ → Prop) [∀ m e, Decidable (P m e)] :
    (m : Shared σ) → (es : List (SharedEvent σ)) → Decidable (Throughout E C P m es)
  | _, [] => .isTrue trivial
  | _, _ :: l =>
      have := fun m' => decidableThroughout P m' l
      inferInstanceAs (Decidable (_ ∧ ∀ m' ∈ Shared.step E C _ _, _))

end Runs

section Drops

variable {E : Env} {C : ProtocolCore σ}

theorem prevalidate_append {i : ℕ} {l : List BlockCompleteEntry} {s s' : Session σ}
    (h : prevalidate E C i l s = (true, s')) (l' : List BlockCompleteEntry) :
    prevalidate E C i (l ++ l') s = prevalidate E C (i + l.length) l' s' := by
  induction l generalizing i s with
  | nil =>
    cases h
    rfl
  | cons entry l ih =>
    rw [List.cons_append, prevalidate]
    unfold prevalidate at h
    cases hstop : s.checkStopFlagAndExit (.prevalidation i) with
    | some s' => simp [hstop] at h
    | none =>
      cases hparse : parseAndValidateBlockFromBlob entry.block with
      | none => simp [hstop, hparse] at h
      | some b =>
        simp only [hstop, hparse] at h ⊢
        split_ifs at h ⊢ with hsecond hrequested htxs
        · cases h
        · cases h
        · rw [ih h, List.length_cons, add_assoc, add_comm 1]
        · cases h

theorem prevalidate_world {i : ℕ} {l : List BlockCompleteEntry} {s s' : Session σ}
    (h : prevalidate E C i l s = (true, s')) : s'.world = s.world := by
  rcases prevalidate_spec E C i l s with ⟨requested, hr⟩ | ⟨s₁, hr, -⟩
  · rw [hr] at h
    cases h
    rfl
  · rw [hr] at h
    cases h

theorem prevalidate_notRequested {blocks : List BlockCompleteEntry} {s : Session σ}
    (h : NotRequested E C blocks s) :
    ∃ s', prevalidate E C 0 blocks s = (false, s') ∧ s'.context.dropped = true := by
  obtain ⟨k, hk, htake, hstop, b, hb, hsecond, hrequested⟩ := h
  obtain ⟨entry, hentry, hparse⟩ := Option.bind_eq_some_iff.mp hb
  have hlen : (blocks.take k).length = k := List.length_take_of_le hk.le
  have hsplit : blocks = blocks.take k ++ entry :: blocks.drop (k + 1) := by
    obtain ⟨hlt, rfl⟩ := List.getElem?_eq_some_iff.mp hentry
    rw [← List.drop_eq_getElem_cons hlt, List.take_append_drop]
  generalize hr : prevalidate E C 0 (blocks.take k) s = r at htake hrequested
  obtain ⟨ok, s₁⟩ := r
  obtain rfl : ok = true := htake
  have hworld := prevalidate_world hr
  have hclear : s₁.checkStopFlagAndExit (.prevalidation k) = none := by
    unfold checkStopFlagAndExit
    rw [hworld, if_neg (by simp [hstop])]
  refine ⟨s₁.dropConnection, ?_, rfl⟩
  rw [hsplit, prevalidate_append hr, hlen, Nat.zero_add, prevalidate, hclear]
  simp only [hparse]
  rw [hworld, if_neg hsecond, if_pos hrequested]

theorem dropped_of_violates {s s' : Session σ} {d : Delivery} (hv : Violates E C s d)
    (hs : step E C s (.deliver d) = some s') : s'.context.dropped = true := by
  cases d with
  | responseChainEntry arg =>
    obtain ⟨hopen, hidle, first, hfirst, hhave⟩ := hv
    simp only [step, hopen] at hs
    rw [if_neg (by simp)] at hs
    cases hs
    unfold handleResponseChainEntry
    cases hids : arg.blockIds with
    | nil => rfl
    | cons first' l =>
      rw [hids] at hfirst
      obtain rfl := Option.some.inj hfirst
      simp only [callIfNoBatchExclusiveOperation]
      rw [if_neg (by simp [receive, hidle])]
      simp only [processChainEntry]
      rw [if_neg (by simp [receive, hhave])]
      rfl
  | responseGetObjects arg =>
    obtain ⟨hopen, hidle, hheight, hobj⟩ := hv
    simp only [step, hopen] at hs
    rw [if_neg (by simp)] at hs
    simp only [handle, handleResponseGetObjects, callIfNoBatchExclusiveOperation] at hs
    rw [if_neg (by simpa [receive] using hheight), if_neg (by simp [receive, withRemoteHeight, hidle])] at hs
    simp only [processObjects] at hs
    rcases hobj with hnot | ⟨hall, hne⟩
    · obtain ⟨s₁, hpre, hdropped⟩ := prevalidate_notRequested hnot
      rw [hpre] at hs
      cases hs
      exact hdropped
    · generalize prevalidate E C 0 arg.blocks _ = r at hs hall hne
      obtain ⟨ok, s₁⟩ := r
      obtain rfl : ok = true := hall
      simp only at hs hne
      rw [if_pos hne] at hs
      cases hs
      rfl
  | _ => exact hv.elim

theorem Shared.step_dropped {m m' : Shared σ} {e : SharedEvent σ} (hm : m' ∈ Shared.step E C m e)
    (h : m.session.context.dropped = true ∨ ¬OnDelivery (fun s d => ¬Violates E C s d) m e) :
    m'.session.context.dropped = true := by
  cases e with
  | thread t a =>
    obtain ⟨lock, -, rfl⟩ := Option.map_eq_some_iff.mp hm
    exact h.resolve_right (not_not.mpr trivial)
  | elsewhere w =>
    cases hm
    exact h.resolve_right (not_not.mpr trivial)
  | deliver d =>
    simp only [Shared.step] at hm
    split_ifs at hm with hblocked
    · cases hm
    obtain ⟨s', hs', rfl⟩ := Option.map_eq_some_iff.mp hm
    rcases h with hdropped | hviolates
    · simp only [Session.step] at hs'
      rw [if_pos (.inl hdropped)] at hs'
      cases hs'
      exact hdropped
    · have hs : s'.context.dropped = true := dropped_of_violates (not_not.mp hviolates) hs'
      exact hs

/-- With a violation among its deliveries a run ends with the connection dropped. -/
theorem Shared.run_dropped {m m' : Shared σ} {es : List (SharedEvent σ)}
    (hrun : es.foldlM (Shared.step E C) m = some m')
    (h : m.session.context.dropped = true ∨
      ¬Throughout E C (OnDelivery fun s d => ¬Violates E C s d) m es) :
    m'.session.context.dropped = true := by
  induction es generalizing m with
  | nil =>
    cases hrun
    exact h.resolve_right (not_not.mpr trivial)
  | cons e l ih =>
    rw [List.foldlM_cons] at hrun
    obtain ⟨m₁, hm₁, hrun⟩ := Option.bind_eq_some_iff.mp hrun
    refine ih hrun ?_
    by_cases hstep : m.session.context.dropped = true ∨
        ¬OnDelivery (fun s d => ¬Violates E C s d) m e
    · exact .inl (Shared.step_dropped hm₁ hstep)
    · obtain ⟨hopen, hkept⟩ := not_or.mp hstep
      refine .inr fun hl => h.resolve_left hopen ⟨not_not.mp hkept, fun m₂ hm₂ => ?_⟩
      obtain rfl := Option.some.inj (hm₁.symm.trans hm₂)
      exact hl

end Drops

/-- Where a connection to an honest peer stands. One that is not synchronizing has nothing left over; one
that is waits for a callback or for the answer to its only request, or for nothing; the lists are those
of the request. -/
inductive Phase (C : ProtocolCore σ) (p : PeerChain) (s : Session σ) : Prop
  | dropped : s.context.dropped = true → Phase C p s
  | quiet : s.context.state ≠ .synchronizing → s.context.callbacks = 0 →
      s.context.unanswered = [] → NothingLeft s.context → Phase C p s
  | left : s.context.state = .synchronizing → s.context.callbacks = 0 →
      s.context.unanswered = [] → Phase C p s
  | called : s.context.state = .synchronizing → s.context.callbacks = 1 →
      s.context.unanswered = [] → NothingLeft s.context → Phase C p s
  | asksChain (ids : List Hash) : s.context.state = .synchronizing → s.context.callbacks = 0 →
      s.context.unanswered = [.requestChain ids] → NothingLeft s.context →
      (∀ id ∈ ids, C.haveBlock s.world.core id = true) → Phase C p s
  | asksObjects (l : List Hash) : s.context.state = .synchronizing → s.context.callbacks = 0 →
      s.context.unanswered = [.requestGetObjects ⟨[], l⟩] →
      s.context.requestedObjects = l.toFinset → (l ++ s.context.neededObjects).Nodup → Phase C p s

section Steps

variable {E : Env} {C : ProtocolCore σ} {p : PeerChain} {I : σ → Prop}

theorem takeNeeded_sublist (known : Hash → Bool) (room : ℕ) (l : List Hash) :
    ((takeNeeded known room l).1 ++ (takeNeeded known room l).2).Sublist l := by
  induction l generalizing room with
  | nil => simp [takeNeeded]
  | cons id l ih =>
    cases room with
    | zero => simp [takeNeeded]
    | succ room =>
      unfold takeNeeded
      split_ifs
      · exact (ih (room + 1)).cons id
      · exact (ih room).cons_cons id

/-- A request is for distinct ids, and from empty lists it is all that is waited for. -/
theorem phase_requestMissingObjects (hC : SoundCore C I) (checkHavingBlocks : Bool) {s : Session σ}
    (hI : I s.world.core) (hfree : s.world.exclusiveBatchActive = false)
    (hstate : s.context.state = .synchronizing)
    (hcallbacks : s.context.callbacks = 0) (hunanswered : s.context.unanswered = [])
    (hrequested : s.context.requestedObjects = ∅) (hneeded : s.context.neededObjects.Nodup) :
    Phase C p (requestMissingObjects C checkHavingBlocks s).2 := by
  unfold requestMissingObjects callIfNoBatchExclusiveOperation
  dsimp only
  split_ifs with hsome hheight hbusy hfinal
  · refine .asksObjects (takeNeeded (fun id => checkHavingBlocks && C.haveBlock s.world.core id)
      BLOCKS_SYNCHRONIZING_DEFAULT_COUNT s.context.neededObjects).1 hstate hcallbacks
      (by simp [postRequest, hunanswered]) ?_ ?_
    · simp [postRequest, hrequested]
    · exact hneeded.sublist (takeNeeded_sublist _ _ _)
  · rw [hfree] at hbusy
    cases hbusy
  · exact .asksChain _ hstate hcallbacks (by simp [postRequest, hunanswered])
      ⟨not_not.mp hsome, hrequested⟩ (hC.history _ hI)
  · exact .quiet nofun hcallbacks hunanswered hfinal.2
  · exact .left hstate hcallbacks hunanswered

theorem requestMissingObjects_dropped (checkHavingBlocks : Bool) {s : Session σ}
    (h : s.context.dropped = true) :
    (requestMissingObjects C checkHavingBlocks s).2.context.dropped = true := by
  unfold requestMissingObjects callIfNoBatchExclusiveOperation
  dsimp only
  split_ifs <;> exact h

theorem requestMissingObjects_core (checkHavingBlocks : Bool) (s : Session σ) :
    (requestMissingObjects C checkHavingBlocks s).2.world.core = s.world.core := by
  unfold requestMissingObjects callIfNoBatchExclusiveOperation
  dsimp only
  split_ifs <;> rfl

theorem collectNeeded_world (i : ℕ) (ids : List Hash) (s : Session σ) :
    (collectNeeded C i ids s).2.world = s.world := by
  induction ids generalizing i s with
  | nil => rfl
  | cons id l ih =>
    unfold collectNeeded
    cases hstop : s.checkStopFlagAndExit (.chainEntry i) with
    | some s' =>
      obtain ⟨-, rfl⟩ := checkStopFlagAndExit_eq hstop
      rfl
    | none =>
      dsimp only
      split_ifs
      · exact ih (i + 1) s
      · exact ih (i + 1) (s.addNeeded [id])

theorem collectNeeded_dropped (i : ℕ) (ids : List Hash) {s : Session σ}
    (h : s.context.dropped = true) : (collectNeeded C i ids s).2.context.dropped = true := by
  induction ids generalizing i s with
  | nil => exact h
  | cons id l ih =>
    unfold collectNeeded
    cases hstop : s.checkStopFlagAndExit (.chainEntry i) with
    | some s' =>
      obtain ⟨-, rfl⟩ := checkStopFlagAndExit_eq hstop
      rfl
    | none =>
      dsimp only
      split_ifs
      · exact ih (i + 1) h
      · exact ih (i + 1) (s := s.addNeeded [id]) h

theorem requestNeeded_core (ids : List Hash) (s : Session σ) :
    (requestNeeded C ids s).world.core = s.world.core := by
  have hworld := collectNeeded_world (C := C) 0 ids s
  unfold requestNeeded
  rcases hr : collectNeeded C 0 ids s with ⟨_ | _, s₁⟩ <;> rw [hr] at hworld
  · exact congrArg World.core hworld
  · exact (requestMissingObjects_core false s₁).trans (congrArg World.core hworld)

theorem requestNeeded_dropped (ids : List Hash) {s : Session σ} (h : s.context.dropped = true) :
    (requestNeeded C ids s).context.dropped = true := by
  have hdropped := collectNeeded_dropped (C := C) 0 ids h
  unfold requestNeeded
  rcases hr : collectNeeded C 0 ids s with ⟨_ | _, s₁⟩ <;> rw [hr] at hdropped
  · exact hdropped
  · exact requestMissingObjects_dropped false hdropped

theorem phase_requestNeeded (hC : SoundCore C I) {ids : List Hash} {s : Session σ}
    (hI : I s.world.core) (hfree : s.world.exclusiveBatchActive = false) (hids : ids.Nodup)
    (hstate : s.context.state = .synchronizing) (hcallbacks : s.context.callbacks = 0)
    (hunanswered : s.context.unanswered = []) (hleft : NothingLeft s.context) :
    Phase C p (requestNeeded C ids s) := by
  unfold requestNeeded
  by_cases hstop : ∃ i < ids.length, s.world.stop (.chainEntry i) = true
  · obtain ⟨s', hs', hdropped⟩ := collectNeeded_stop C (i := 0) (s := s) (by simpa using hstop)
    rw [hs']
    exact .dropped hdropped
  · have hgo : ∀ k < ids.length, s.world.stop (.chainEntry (0 + k)) = false := by
      intro k hk
      rw [Nat.zero_add]
      exact Bool.eq_false_iff.mpr fun hset => hstop ⟨k, hk, hset⟩
    rw [collectNeeded_go C hgo]
    refine phase_requestMissingObjects hC false hI hfree hstate hcallbacks hunanswered hleft.2 ?_
    have hneeded : (s.addNeeded (ids.filter fun id => !C.haveBlock s.world.core id)).context.neededObjects =
        ids.filter fun id => !C.haveBlock s.world.core id := by
      simp [addNeeded, hleft.1]
    rw [hneeded]
    exact hids.filter _

/-- The first id of an honest answer is one that was asked with, so it is known. -/
theorem phase_handleResponseChainEntry (hC : SoundCore C I) {ids : List Hash}
    {arg : NotifyResponseChainEntry} {s : Session σ} (hp : p.ids.Nodup) (hI : I s.world.core)
    (hfree : arg.blockIds ≠ [] → s.world.exclusiveBatchActive = false)
    (hanswer : p.AnswersChain ids arg) (hids : ∀ id ∈ ids, C.haveBlock s.world.core id = true)
    (hstate : s.context.state = .synchronizing) (hcallbacks : s.context.callbacks = 0)
    (hunanswered : s.context.unanswered = []) (hleft : NothingLeft s.context) :
    Phase C p (handleResponseChainEntry C arg s) := by
  obtain ⟨hrun, hhead, -⟩ := hanswer
  unfold handleResponseChainEntry callIfNoBatchExclusiveOperation
  cases hblocks : arg.blockIds with
  | nil => exact .dropped rfl
  | cons first l =>
    rw [hblocks] at hhead
    have hfree := hfree (by rw [hblocks]; nofun)
    obtain ⟨id, hid, rfl⟩ : ∃ id ∈ ids, id = first := by simpa using hhead
    dsimp only
    split_ifs with hbusy
    · rw [hfree] at hbusy
      cases hbusy
    · dsimp only
      have hnodup : arg.blockIds.Nodup := hp.sublist (hrun.sublist.trans (List.drop_sublist _ _))
      unfold processChainEntry
      rw [if_pos (hids id hid)]
      dsimp only
      split_ifs
      · exact .dropped (requestNeeded_dropped _ rfl)
      · exact phase_requestNeeded hC (s := s.withHeights arg) hI hfree hnodup hstate hcallbacks
          hunanswered hleft

theorem handleResponseChainEntry_core (arg : NotifyResponseChainEntry) (s : Session σ) :
    (handleResponseChainEntry C arg s).world.core = s.world.core := by
  unfold handleResponseChainEntry callIfNoBatchExclusiveOperation processChainEntry
  cases arg.blockIds with
  | nil => rfl
  | cons first l =>
    dsimp only
    split_ifs
    · rfl
    · exact (requestNeeded_core _ _).trans rfl
    · exact (requestNeeded_core _ _).trans rfl
    · rfl

theorem entryOf_getElem? {l : List Hash} {blocks : List BlockCompleteEntry}
    (h : blocks.map some = l.map p.entryOf) {k : ℕ} {entry : BlockCompleteEntry}
    (hk : blocks[k]? = some entry) : ∃ id, l[k]? = some id ∧ p.entryOf id = some entry := by
  have hmap : (blocks.map some)[k]? = (l.map p.entryOf)[k]? := by rw [h]
  rw [List.getElem?_map, List.getElem?_map, hk] at hmap
  obtain ⟨id, hid, hentry⟩ := Option.map_eq_some_iff.mp hmap.symm
  exact ⟨id, hid, hentry⟩

/-- Blocks that were asked for are struck off one by one. -/
theorem prevalidate_requested (hp : p.Valid E) {i : ℕ} {l l' : List Hash}
    {blocks : List BlockCompleteEntry} {s s' : Session σ} (hblocks : blocks.map some = l.map p.entryOf)
    (hnodup : (l ++ l').Nodup) (hrequested : s.context.requestedObjects = (l ++ l').toFinset)
    (h : prevalidate E C i blocks s = (true, s')) :
    s'.context.requestedObjects = l'.toFinset := by
  induction blocks generalizing i l s with
  | nil =>
    obtain rfl : l = [] := by simpa using hblocks.symm
    cases h
    exact hrequested
  | cons entry blocks ih =>
    obtain ⟨id, l, rfl⟩ : ∃ id l₁, l = id :: l₁ := by
      cases l with
      | nil => cases hblocks
      | cons id l => exact ⟨id, l, rfl⟩
    rw [List.map_cons, List.map_cons, List.cons.injEq] at hblocks
    obtain ⟨b, hb, hhash, -⟩ := hp.of_entryOf hblocks.1.symm
    rw [List.cons_append, List.nodup_cons] at hnodup
    unfold prevalidate at h
    cases hstop : s.checkStopFlagAndExit (.prevalidation i) with
    | some s₁ =>
      rw [hstop] at h
      cases h
    | none =>
      rw [hstop, hb] at h
      dsimp only at h
      split_ifs at h
      · cases h
      · cases h
      · refine ih hblocks.2 hnodup.2 ?_ h
        have hnot : id ∉ (l ++ l').toFinset := fun hmem => hnodup.1 (List.mem_toFinset.mp hmem)
        rw [hhash, hrequested, List.cons_append, List.toFinset_cons]
        exact Finset.erase_insert hnot
      · cases h

theorem not_notRequested (hp : p.Valid E) {l : List Hash} {blocks : List BlockCompleteEntry}
    {s : Session σ} (hblocks : blocks.map some = l.map p.entryOf) (hnodup : l.Nodup)
    (hrequested : s.context.requestedObjects = l.toFinset) : ¬NotRequested E C blocks s := by
  rintro ⟨k, -, htake, -, b, hb, -, hnot⟩
  obtain ⟨entry, hentry, hparse⟩ := Option.bind_eq_some_iff.mp hb
  obtain ⟨id, hid, hof⟩ := entryOf_getElem? hblocks hentry
  obtain ⟨b', hb', hhash, -⟩ := hp.of_entryOf hof
  obtain rfl : b' = b := Option.some.inj (hb'.symm.trans hparse)
  have htaken : (blocks.take k).map some = (l.take k).map p.entryOf := by
    rw [List.map_take, List.map_take, hblocks]
  have hsplit := l.take_append_drop k
  generalize hr : prevalidate E C 0 (blocks.take k) s = r at htake hnot
  obtain ⟨ok, s₁⟩ := r
  obtain rfl : ok = true := htake
  have hleft := prevalidate_requested hp htaken (by rwa [hsplit]) (by rwa [hsplit]) hr
  rw [hhash, hleft, List.mem_toFinset] at hnot
  obtain ⟨hlt, rfl⟩ := List.getElem?_eq_some_iff.mp hid
  exact hnot (List.mem_drop_iff_getElem.mpr ⟨0, by simpa using hlt, by simp⟩)

theorem not_notAllRequested (hp : p.Valid E) {l : List Hash} {blocks : List BlockCompleteEntry}
    {s : Session σ} (hblocks : blocks.map some = l.map p.entryOf) (hnodup : l.Nodup)
    (hrequested : s.context.requestedObjects = l.toFinset) : ¬NotAllRequested E C blocks s := by
  rintro ⟨hall, hne⟩
  generalize hr : prevalidate E C 0 blocks s = r at hall hne
  obtain ⟨ok, s₁⟩ := r
  obtain rfl : ok = true := hall
  have hnone : s₁.context.requestedObjects = ([] : List Hash).toFinset :=
    prevalidate_requested hp hblocks (by simpa using hnodup) (by simpa using hrequested) hr
  exact hne hnone

/-- Where the first loop returns, the connection is dropped or waits for nothing. -/
theorem prevalidate_exit {i : ℕ} {blocks : List BlockCompleteEntry} {s s' : Session σ}
    (h : prevalidate E C i blocks s = (false, s')) : s'.world = s.world ∧
      (s'.context.dropped = true ∨ s'.context.state = .idle ∧
        s'.context.callbacks = s.context.callbacks ∧ s'.context.unanswered = s.context.unanswered ∧
        NothingLeft s'.context) := by
  induction blocks generalizing i s with
  | nil => cases h
  | cons entry blocks ih =>
    unfold prevalidate at h
    cases hstop : s.checkStopFlagAndExit (.prevalidation i) with
    | some s₁ =>
      obtain ⟨-, rfl⟩ := checkStopFlagAndExit_eq hstop
      rw [hstop] at h
      cases h
      exact ⟨rfl, Or.inl rfl⟩
    | none =>
      cases hb : parseAndValidateBlockFromBlob entry.block with
      | none =>
        rw [hstop, hb] at h
        cases h
        exact ⟨rfl, Or.inl rfl⟩
      | some b =>
        rw [hstop, hb] at h
        dsimp only at h
        split_ifs at h
        · cases h
          exact ⟨rfl, Or.inr ⟨rfl, rfl, rfl, rfl, rfl⟩⟩
        · cases h
          exact ⟨rfl, Or.inl rfl⟩
        · have hl := ih h
          exact hl
        · cases h
          exact ⟨rfl, Or.inl rfl⟩

theorem handleBlockTxs_core (hC : SoundCore C I) (i j : ℕ) (txs : List Blob) {s : Session σ}
    (hI : I s.world.core) : I (handleBlockTxs C i j txs s).2.world.core := by
  induction txs generalizing j s with
  | nil => exact hI
  | cons txBlob l ih =>
    unfold handleBlockTxs
    cases hstop : s.checkStopFlagAndExit (.tx i j) with
    | some s' =>
      obtain ⟨-, rfl⟩ := checkStopFlagAndExit_eq hstop
      exact hI
    | none =>
      dsimp only
      split_ifs
      · exact hC.tx _ txBlob true hI
      · exact ih (j + 1) (hC.tx _ txBlob true hI)

theorem handleBlocks_core (hC : SoundCore C I) {i : ℕ} {blocks : List BlockCompleteEntry}
    {s : Session σ} {r : Bool × Session σ} (hI : I s.world.core)
    (h : handleBlocks C i blocks s = some r) : I r.2.world.core := by
  induction blocks generalizing i s with
  | nil =>
    cases h
    exact hI
  | cons entry l ih =>
    unfold handleBlocks at h
    cases hstop : s.checkStopFlagAndExit (.block i) with
    | some s' =>
      obtain ⟨-, rfl⟩ := checkStopFlagAndExit_eq hstop
      rw [hstop] at h
      cases h
      exact hI
    | none =>
      rw [hstop] at h
      have htxs := handleBlockTxs_core hC i 0 entry.txs hI
      rcases hr : handleBlockTxs C i 0 entry.txs s with ⟨_ | _, s₁⟩ <;> rw [hr] at h htxs <;>
        dsimp only at h
      · cases h
        exact htxs
      · cases hb : C.handleIncomingBlock s₁.world.core entry.block with
        | none =>
          rw [hb] at h
          cases h
        | some x =>
          have hx := hC.block _ _ _ htxs hb
          rw [hb] at h
          dsimp only at h
          split_ifs at h
          · cases h
            exact hx
          · cases h
            exact hx
          · exact ih (s := s₁.setCore x.2) hx h

theorem phase_processObjects (hC : SoundCore C I) (hp : p.Valid E) {l : List Hash}
    {arg : NotifyResponseGetObjects} {s s' : Session σ} (hI : I s.world.core)
    (hblocks : arg.blocks.map some = l.map p.entryOf) (hstate : s.context.state = .synchronizing)
    (hcallbacks : s.context.callbacks = 0) (hunanswered : s.context.unanswered = [])
    (hrequested : s.context.requestedObjects = l.toFinset)
    (hnodup : (l ++ s.context.neededObjects).Nodup) (h : processObjects E C arg s = some s') :
    I s'.world.core ∧ Phase C p s' := by
  have hl : l.Nodup := (List.nodup_append'.mp hnodup).1
  unfold processObjects at h
  obtain ⟨requested, hpre⟩ | ⟨s₁, hpre, -⟩ := prevalidate_spec E C 0 arg.blocks s
  · have hnone : requested = ([] : List Hash).toFinset :=
      prevalidate_requested hp hblocks (by simpa using hl) (by simpa using hrequested) hpre
    rw [List.toFinset_nil] at hnone
    subst hnone
    rw [hpre] at h
    dsimp only at h
    rw [if_neg (not_not.mpr rfl)] at h
    cases hb : handleBlocks C 0 arg.blocks (setExclusiveBatch
        { s with context := { s.context with requestedObjects := ∅ } } true) with
    | none =>
      rw [hb] at h
      cases h
    | some r =>
      have hstart : I (setExclusiveBatch
          { s with context := { s.context with requestedObjects := ∅ } } true).world.core := hI
      have hcore := handleBlocks_core hC hstart hb
      rw [hb] at h
      obtain ⟨s₂, rfl, hsame⟩ | ⟨s₂, rfl, hdropped⟩ := handleBlocks_spec C hb
      · dsimp only at h
        cases h
        have hcontext : (s₂.setExclusiveBatch false).context =
            { s.context with requestedObjects := ∅ } := hsame
        refine ⟨by rwa [requestMissingObjects_core], ?_⟩
        refine phase_requestMissingObjects hC true hcore rfl ?_ ?_ ?_ ?_ ?_
        · rw [hcontext]
          exact hstate
        · rw [hcontext]
          exact hcallbacks
        · rw [hcontext]
          exact hunanswered
        · rw [hcontext]
        · rw [hcontext]
          exact (List.nodup_append'.mp hnodup).2.1
      · dsimp only at h
        cases h
        exact ⟨hcore, .dropped hdropped⟩
  · rw [hpre] at h
    cases h
    obtain ⟨hworld, hdropped | ⟨hidle, hcalls, hposted, hnothing⟩⟩ := prevalidate_exit hpre
    · exact ⟨hworld ▸ hI, .dropped hdropped⟩
    · exact ⟨hworld ▸ hI, .quiet (by rw [hidle]; nofun) (hcalls.trans hcallbacks)
        (hposted.trans hunanswered) hnothing⟩

theorem phase_handleResponseGetObjects (hC : SoundCore C I) (hp : p.Valid E) {l : List Hash}
    {arg : NotifyResponseGetObjects} {s s' : Session σ} (hI : I s.world.core)
    (hfree : ¬arg.currentBlockchainHeight < s.context.lastResponseHeight →
      s.world.exclusiveBatchActive = false)
    (hblocks : arg.blocks.map some = l.map p.entryOf) (hstate : s.context.state = .synchronizing)
    (hcallbacks : s.context.callbacks = 0) (hunanswered : s.context.unanswered = [])
    (hrequested : s.context.requestedObjects = l.toFinset)
    (hnodup : (l ++ s.context.neededObjects).Nodup)
    (h : handleResponseGetObjects E C arg s = some s') : I s'.world.core ∧ Phase C p s' := by
  unfold handleResponseGetObjects callIfNoBatchExclusiveOperation at h
  dsimp only at h
  by_cases hheight : arg.currentBlockchainHeight < s.context.lastResponseHeight
  · rw [if_pos hheight] at h
    cases h
    exact ⟨hI, .dropped rfl⟩
  · rw [if_neg hheight] at h
    rw [if_neg (show ¬(s.withRemoteHeight arg.currentBlockchainHeight).world.exclusiveBatchActive =
      true from Bool.eq_false_iff.mp (hfree hheight))] at h
    exact phase_processObjects hC hp (s := s.withRemoteHeight arg.currentBlockchainHeight) hI hblocks
      hstate hcallbacks hunanswered hrequested hnodup h

theorem handleTxs_spec (hC : SoundCore C I) (keptByBlock : Bool) (txs : List Blob) {s : Session σ}
    (hI : I s.world.core) : I (handleTxs C keptByBlock txs s).2.world.core ∧
      ((handleTxs C keptByBlock txs s).2.context = s.context ∨
        (handleTxs C keptByBlock txs s).1 = false ∧
          (handleTxs C keptByBlock txs s).2.context.dropped = true) := by
  induction txs generalizing s with
  | nil => exact ⟨hI, Or.inl rfl⟩
  | cons txBlob l ih =>
    have htx := hC.tx _ txBlob keptByBlock hI
    unfold handleTxs
    dsimp only
    split_ifs
    · exact ⟨htx, Or.inr ⟨rfl, rfl⟩⟩
    · have hl := ih (s := s.setCore _) htx
      exact hl

theorem takesNews_state {s : Session σ} (h : s.takesNews = true) :
    s.context.state ≠ .synchronizing := by
  unfold takesNews at h
  simp only [Bool.and_eq_true, decide_eq_true_eq] at h
  rw [h.1.2]
  nofun

/-- A connection that is not synchronizing waits for nothing and has nothing left over: whatever starts
a synchronization finds the lists empty. -/
theorem Phase.waits_for_nothing {s : Session σ} (h : Phase C p s) (hopen : s.context.dropped = false)
    (hsync : s.context.state ≠ .synchronizing) :
    s.context.callbacks = 0 ∧ s.context.unanswered = [] ∧ NothingLeft s.context := by
  cases h with
  | dropped hdropped =>
    rw [hopen] at hdropped
    cases hdropped
  | quiet _ hcallbacks hunanswered hleft => exact ⟨hcallbacks, hunanswered, hleft⟩
  | left hstate => exact absurd hstate hsync
  | called hstate => exact absurd hstate hsync
  | asksChain _ hstate => exact absurd hstate hsync
  | asksObjects _ hstate => exact absurd hstate hsync

/-- The phase depends on the state, the lists and what is outstanding, and on what the core has. -/
theorem Phase.of_eq {s s' : Session σ} (h : Phase C p s)
    (hdropped : s.context.dropped = true → s'.context.dropped = true)
    (hstate : s'.context.state = s.context.state)
    (hcallbacks : s'.context.callbacks = s.context.callbacks)
    (hunanswered : s'.context.unanswered = s.context.unanswered)
    (hneeded : s'.context.neededObjects = s.context.neededObjects)
    (hrequested : s'.context.requestedObjects = s.context.requestedObjects)
    (hknown : ∀ n ∈ s.context.unanswered, ∀ ids ∈ chainRequest n, ∀ id ∈ ids,
      C.haveBlock s.world.core id = true → C.haveBlock s'.world.core id = true) : Phase C p s' := by
  cases h with
  | dropped h => exact .dropped (hdropped h)
  | quiet h₁ h₂ h₃ hleft =>
    exact .quiet (hstate ▸ h₁) (hcallbacks ▸ h₂) (hunanswered ▸ h₃)
      ⟨hneeded ▸ hleft.1, hrequested ▸ hleft.2⟩
  | left h₁ h₂ h₃ => exact .left (hstate ▸ h₁) (hcallbacks ▸ h₂) (hunanswered ▸ h₃)
  | called h₁ h₂ h₃ hleft =>
    exact .called (hstate ▸ h₁) (hcallbacks ▸ h₂) (hunanswered ▸ h₃)
      ⟨hneeded ▸ hleft.1, hrequested ▸ hleft.2⟩
  | asksChain ids h₁ h₂ h₃ hleft hids =>
    refine .asksChain ids (hstate ▸ h₁) (hcallbacks ▸ h₂) (hunanswered ▸ h₃)
      ⟨hneeded ▸ hleft.1, hrequested ▸ hleft.2⟩ fun id hid => ?_
    exact hknown (.requestChain ids) (by simp [h₃]) ids rfl id hid (hids id hid)
  | asksObjects l h₁ h₂ h₃ hl hnodup =>
    exact .asksObjects l (hstate ▸ h₁) (hcallbacks ▸ h₂) (hunanswered ▸ h₃) (hrequested ▸ hl)
      (hneeded ▸ hnodup)

theorem phase_handleRequestChain (blockIds : List Hash) {s : Session σ} (hI : I s.world.core)
    (h : Phase C p s) :
    I (handleRequestChain E C blockIds s).world.core ∧ Phase C p (handleRequestChain E C blockIds s) := by
  have hposted (n : Notification) : Phase C p (s.postResponse n) :=
    h.of_eq id rfl rfl rfl rfl rfl fun _ _ _ _ _ _ => id
  unfold handleRequestChain callIfNoBatchExclusiveOperation
  split_ifs
  · exact ⟨hI, hposted _⟩
  · dsimp only
    cases C.findBlockchainSupplement s.world.core blockIds with
    | none => exact ⟨hI, h⟩
    | some r => exact ⟨hI, hposted _⟩
  · exact ⟨hI, hposted _⟩

theorem phase_handleRequestGetObjects (arg : NotifyRequestGetObjects) {s : Session σ}
    (hI : I s.world.core) (h : Phase C p s) :
    I (handleRequestGetObjects C arg s).world.core ∧ Phase C p (handleRequestGetObjects C arg s) := by
  unfold handleRequestGetObjects
  dsimp only
  split_ifs
  · exact ⟨hI, .dropped rfl⟩
  · exact ⟨hI, .dropped rfl⟩
  · exact ⟨hI, .dropped rfl⟩
  · exact ⟨hI, h.of_eq id rfl rfl rfl rfl rfl fun _ _ _ _ _ _ => id⟩
  · exact ⟨hI, .dropped rfl⟩
  · exact ⟨hI, h⟩

theorem phase_handleNotifyNewTransactions (hC : SoundCore C I) (txs : List Blob) {s : Session σ}
    (hI : I s.world.core) (h : Phase C p s) (hopen : s.context.dropped = false) :
    I (handleNotifyNewTransactions C txs s).world.core ∧
      Phase C p (handleNotifyNewTransactions C txs s) := by
  unfold handleNotifyNewTransactions
  split_ifs with htakes
  · have hsync := takesNews_state htakes
    obtain ⟨hcallbacks, hunanswered, hleft⟩ := h.waits_for_nothing hopen hsync
    obtain ⟨hcore, hsame | ⟨-, hdropped⟩⟩ := handleTxs_spec hC false txs hI
    · exact ⟨hcore, .quiet (hsame ▸ hsync) (hsame ▸ hcallbacks) (hsame ▸ hunanswered) (hsame ▸ hleft)⟩
    · exact ⟨hcore, .dropped hdropped⟩
  · exact ⟨hI, h⟩

theorem phase_handleNotifyNewBlock (hC : SoundCore C I) {arg : NotifyNewBlock} {s s' : Session σ}
    (hI : I s.world.core) (h : Phase C p s) (hopen : s.context.dropped = false)
    (hs : handleNotifyNewBlock C arg s = some s') : I s'.world.core ∧ Phase C p s' := by
  unfold handleNotifyNewBlock at hs
  split_ifs at hs with htakes
  · have hsync := takesNews_state htakes
    obtain ⟨hcallbacks, hunanswered, hleft⟩ := h.waits_for_nothing hopen hsync
    obtain ⟨hcore, hspec⟩ := handleTxs_spec hC true arg.b.txs hI
    rcases hr : handleTxs C true arg.b.txs s with ⟨_ | _, s₁⟩ <;> rw [hr] at hs hcore hspec <;>
      dsimp only at hs hcore hspec
    · cases hs
      obtain hsame | ⟨-, hdropped⟩ := hspec
      · exact ⟨hcore, .quiet (hsame ▸ hsync) (hsame ▸ hcallbacks) (hsame ▸ hunanswered)
          (hsame ▸ hleft)⟩
      · exact ⟨hcore, .dropped hdropped⟩
    · have hsame : s₁.context = s.context := hspec.resolve_right fun hfalse => by cases hfalse.1
      cases hb : C.handleIncomingBlock s₁.world.core arg.b.block with
      | none =>
        rw [hb] at hs
        cases hs
      | some x =>
        have hx := hC.block _ _ _ hcore hb
        have hquiet : Phase C p (s₁.setCore x.2) :=
          .quiet (hsame ▸ hsync) (hsame ▸ hcallbacks) (hsame ▸ hunanswered) (hsame ▸ hleft)
        rw [hb] at hs
        dsimp only at hs
        split_ifs at hs
        · cases hs
          exact ⟨hx, .dropped rfl⟩
        · cases hs
          exact ⟨hx, hquiet⟩
        · cases hs
          rw [← hsame] at hleft hcallbacks hunanswered
          refine ⟨hx, .asksChain _ rfl hcallbacks ?_ hleft (hC.history _ hx)⟩
          simp [postRequest, setState, setCore, hunanswered]
        · cases hs
          exact ⟨hx, hquiet⟩
  · cases hs
    exact ⟨hI, h⟩

theorem onCallback_core (s : Session σ) : (onCallback C s).world.core = s.world.core := by
  unfold onCallback callIfNoBatchExclusiveOperation
  dsimp only
  split_ifs <;> rfl

theorem phase_onCallback (hC : SoundCore C I) {s : Session σ} (hI : I s.world.core)
    (hfree : s.context.callbackRequestCount ≠ 0 → s.world.exclusiveBatchActive = false)
    (hstate : s.context.state = .synchronizing) (hcallbacks : s.context.callbacks = 0)
    (hunanswered : s.context.unanswered = []) (hleft : NothingLeft s.context) :
    Phase C p (onCallback C s) := by
  unfold onCallback callIfNoBatchExclusiveOperation
  dsimp only
  split_ifs with hnone hbusy
  · exact .left hstate hcallbacks hunanswered
  · rw [hfree hnone] at hbusy
    cases hbusy
  · exact .asksChain _ hstate hcallbacks (by simp [postRequest, hunanswered]) hleft (hC.history _ hI)

theorem processPayloadSyncData_core (hshd : CoreSyncData) (isInital : Bool) (s : Session σ) :
    (processPayloadSyncData C hshd isInital s).2.world.core = s.world.core := by
  unfold processPayloadSyncData callIfNoBatchExclusiveOperation processSyncData
  dsimp only
  split_ifs <;> rfl

theorem phase_processPayloadSyncData {hshd : CoreSyncData} {isInital dropIfRefused : Bool}
    {s : Session σ} (h : Phase C p s) (hopen : s.context.dropped = false)
    (hfree : CallsUnderLock s (.syncData hshd isInital dropIfRefused) →
      s.world.exclusiveBatchActive = false) :
    Phase C p (processPayloadSyncData C hshd isInital s).2 := by
  have hsame : Phase C p { s with context := { s.context with
      remoteVersion := hshd.clientVersion, remoteBlockchainHeight := hshd.currentHeight } } :=
    h.of_eq id rfl rfl rfl rfl rfl fun _ _ _ _ _ _ => id
  unfold processPayloadSyncData callIfNoBatchExclusiveOperation processSyncData
  dsimp only
  split_ifs with hbefore hsync hown hbusy hhave hzone
  · exact hsame
  · exact hsame
  · exact .dropped rfl
  · rw [hfree ⟨hopen, hbefore, hsync, hown⟩] at hbusy
    cases hbusy
  · obtain ⟨hcallbacks, hunanswered, hleft⟩ := h.waits_for_nothing hopen hsync
    exact .quiet nofun hcallbacks hunanswered hleft
  · exact hsame
  · obtain ⟨hcallbacks, hunanswered, hleft⟩ := h.waits_for_nothing hopen hsync
    exact .called rfl (congrArg (· + 1) hcallbacks) hunanswered hleft

theorem Phase.chain_answered {s : Session σ} {arg : NotifyResponseChainEntry} (h : Phase C p s)
    (hopen : s.context.dropped = false) (hhonest : Honest p s (.responseChainEntry arg)) :
    ∃ ids, p.AnswersChain ids arg ∧ s.context.unanswered = [.requestChain ids] ∧
      s.context.state = .synchronizing ∧ s.context.callbacks = 0 ∧ NothingLeft s.context ∧
      ∀ id ∈ ids, C.haveBlock s.world.core id = true := by
  obtain ⟨ids, hasked, hanswer⟩ := hhonest
  cases h with
  | dropped hdropped =>
    rw [hopen] at hdropped
    cases hdropped
  | quiet _ _ hunanswered =>
    rw [hunanswered] at hasked
    cases hasked
  | left _ _ hunanswered =>
    rw [hunanswered] at hasked
    cases hasked
  | called _ _ hunanswered =>
    rw [hunanswered] at hasked
    cases hasked
  | asksChain _ hstate hcallbacks hunanswered hleft hids =>
    rw [hunanswered] at hasked
    cases hasked
    exact ⟨ids, hanswer, hunanswered, hstate, hcallbacks, hleft, hids⟩
  | asksObjects _ _ _ hunanswered =>
    rw [hunanswered] at hasked
    cases hasked

theorem Phase.objects_answered {s : Session σ} {arg : NotifyResponseGetObjects} (h : Phase C p s)
    (hopen : s.context.dropped = false) (hhonest : Honest p s (.responseGetObjects arg)) :
    ∃ l, p.AnswersObjects ⟨[], l⟩ arg ∧ s.context.unanswered = [.requestGetObjects ⟨[], l⟩] ∧
      s.context.state = .synchronizing ∧ s.context.callbacks = 0 ∧
      s.context.requestedObjects = l.toFinset ∧ (l ++ s.context.neededObjects).Nodup := by
  obtain ⟨req, hasked, hanswer⟩ := hhonest
  cases h with
  | dropped hdropped =>
    rw [hopen] at hdropped
    cases hdropped
  | quiet _ _ hunanswered =>
    rw [hunanswered] at hasked
    cases hasked
  | left _ _ hunanswered =>
    rw [hunanswered] at hasked
    cases hasked
  | called _ _ hunanswered =>
    rw [hunanswered] at hasked
    cases hasked
  | asksChain _ _ _ hunanswered =>
    rw [hunanswered] at hasked
    cases hasked
  | asksObjects l hstate hcallbacks hunanswered hrequested hnodup =>
    rw [hunanswered] at hasked
    cases hasked
    exact ⟨l, hanswer, hunanswered, hstate, hcallbacks, hrequested, hnodup⟩

/-- An honest peer does not violate the protocol in any of the phases. -/
theorem not_violates (hp : p.Valid E) {s : Session σ} {d : Delivery} (h : Phase C p s)
    (hhonest : Honest p s d) : ¬Violates E C s d := by
  intro hv
  cases d with
  | responseChainEntry arg =>
    obtain ⟨hopen, -, first, hfirst, hunknown⟩ := hv
    obtain ⟨ids, ⟨-, hhead, -⟩, -, -, -, -, hids⟩ := h.chain_answered hopen hhonest
    rw [Option.mem_def.mp hfirst] at hhead
    obtain ⟨known, hknown, heq⟩ := List.mem_map.mp hhead
    cases heq
    rw [hids first hknown] at hunknown
    cases hunknown
  | responseGetObjects arg =>
    obtain ⟨hopen, -, -, hobjects⟩ := hv
    obtain ⟨l, ⟨hblocks, -⟩, -, -, -, hrequested, hnodup⟩ := h.objects_answered hopen hhonest
    have hl : l.Nodup := (List.nodup_append'.mp hnodup).1
    rcases hobjects with hnot | hall
    · refine not_notRequested hp hblocks hl ?_ hnot
      exact hrequested
    · refine not_notAllRequested hp hblocks hl ?_ hall
      exact hrequested
  | _ => exact hv

theorem phase_deliver (hC : SoundCore C I) (hp : p.Valid E) {s s' : Session σ} {d : Delivery}
    (hI : I s.world.core) (h : Phase C p s)
    (hfree : CallsUnderLock s d → s.world.exclusiveBatchActive = false) (hhonest : Honest p s d)
    (hs : step E C s (.deliver d) = some s') : I s'.world.core ∧ Phase C p s' := by
  unfold step at hs
  dsimp only at hs
  split_ifs at hs with hskip
  · cases hs
    exact ⟨hI, h⟩
  obtain ⟨hnot, hcalled⟩ := not_or.mp hskip
  have hopen : s.context.dropped = false := Bool.eq_false_iff.mpr hnot
  cases d with
  | callback =>
    cases hs
    refine ⟨(onCallback_core _).symm ▸ hI, ?_⟩
    have hsome : s.context.callbacks ≠ 0 := fun hnone => hcalled ⟨rfl, hnone⟩
    cases h with
    | dropped hdropped => exact absurd hdropped hnot
    | quiet _ hnone => exact absurd hnone hsome
    | left _ hnone => exact absurd hnone hsome
    | called hstate hone hunanswered hleft =>
      exact phase_onCallback hC (s := s.receive .callback) hI
        (fun hcount => hfree ⟨hopen, hsome, hcount, hstate⟩) hstate (congrArg (· - 1) hone)
        hunanswered hleft
    | asksChain _ _ hnone => exact absurd hnone hsome
    | asksObjects _ _ hnone => exact absurd hnone hsome
  | syncData hshd isInital dropIfRefused =>
    cases hs
    have hphase := phase_processPayloadSyncData h hopen hfree
    have hcore : I (processPayloadSyncData C hshd isInital s).2.world.core := by
      rwa [processPayloadSyncData_core]
    change I (ite _ _ _ : Session σ).world.core ∧ Phase C p (ite _ _ _)
    split_ifs
    · exact ⟨hcore, .dropped rfl⟩
    · exact ⟨hcore, hphase⟩
  | newBlock arg => exact phase_handleNotifyNewBlock hC hI h hopen hs
  | newTransactions txs =>
    cases hs
    exact phase_handleNotifyNewTransactions hC txs hI h hopen
  | requestChain blockIds =>
    cases hs
    exact phase_handleRequestChain blockIds hI h
  | requestGetObjects arg =>
    cases hs
    exact phase_handleRequestGetObjects arg hI h
  | responseChainEntry arg =>
    cases hs
    obtain ⟨ids, hanswer, hunanswered, hstate, hcallbacks, hleft, hids⟩ :=
      h.chain_answered hopen hhonest
    refine ⟨(handleResponseChainEntry_core arg _).symm ▸ hI, ?_⟩
    exact phase_handleResponseChainEntry hC (s := s.receive (.responseChainEntry arg)) hp.nodup hI
      (fun hne => hfree ⟨hopen, hne⟩) hanswer hids hstate hcallbacks
      (by simp [receive, hunanswered, Notification.isRequestChain]) hleft
  | responseGetObjects arg =>
    obtain ⟨l, ⟨hblocks, -⟩, hunanswered, hstate, hcallbacks, hrequested, hnodup⟩ :=
      h.objects_answered hopen hhonest
    exact phase_handleResponseGetObjects hC hp (s := s.receive (.responseGetObjects arg)) hI
      (fun hheight => hfree ⟨hopen, hheight⟩) hblocks hstate hcallbacks
      (by simp [receive, hunanswered, Notification.isRequestGetObjects]) hrequested hnodup hs

/-- The lock is exclusive, its flag is the one that the handlers see, and the connection is in a phase. -/
structure Shared.Sound (C : ProtocolCore σ) (p : PeerChain) (I : σ → Prop) (m : Shared σ) : Prop where
  lock : m.lock.Exclusive
  flag : m.session.world.exclusiveBatchActive = m.lock.exclusiveBatchActive
  core : I m.session.world.core
  phase : Phase C p m.session

theorem Shared.Sound.step (hC : SoundCore C I) (hp : p.Valid E) {m m' : Shared σ} {e : SharedEvent σ}
    (h : m.Sound C p I) (hcore : ∀ w, e = .elsewhere w → I w.core) (hhonest : OnDelivery (Honest p) m e)
    (hkept : StayKnown C m e) (hm : Shared.step E C m e = some m') : m'.Sound C p I := by
  cases e with
  | thread t a =>
    obtain ⟨lock, hlock, rfl⟩ := Option.map_eq_some_iff.mp hm
    exact ⟨h.lock.step hlock, rfl, h.core,
      h.phase.of_eq id rfl rfl rfl rfl rfl fun _ _ _ _ _ _ => id⟩
  | elsewhere w =>
    cases hm
    exact ⟨h.lock, rfl, hcore w rfl, h.phase.of_eq id rfl rfl rfl rfl rfl hkept⟩
  | deliver d =>
    unfold Shared.step at hm
    dsimp only at hm
    split_ifs at hm with hblocked
    obtain ⟨s', hs', rfl⟩ := Option.map_eq_some_iff.mp hm
    -- who does not wait for the lock and needs it has it
    have hfree (hcalls : CallsUnderLock m.session d) : m.session.world.exclusiveBatchActive = false := by
      rw [h.flag]
      exact h.lock.not_active (not_not.mp fun hheld => hblocked ⟨hheld, hcalls⟩)
    obtain ⟨hI', h'⟩ := phase_deliver hC hp h.core h.phase hfree hhonest hs'
    exact ⟨h.lock, rfl, hI', h'.of_eq id rfl rfl rfl rfl rfl fun _ _ _ _ _ _ => id⟩

theorem throughout_not_violates (hC : SoundCore C I) (hp : p.Valid E) {m : Shared σ}
    {es : List (SharedEvent σ)} (h : m.Sound C p I) (hcores : ∀ w, .elsewhere w ∈ es → I w.core)
    (hhonest : Throughout E C (OnDelivery (Honest p)) m es)
    (hkept : Throughout E C (StayKnown C) m es) :
    Throughout E C (OnDelivery fun s d => ¬Violates E C s d) m es := by
  induction es generalizing m with
  | nil => trivial
  | cons e l ih =>
    have hcore : ∀ w, e = .elsewhere w → I w.core := fun w hw => hcores w (hw ▸ List.mem_cons_self)
    refine ⟨?_, fun m' hm => ?_⟩
    · cases e with
      | deliver d => exact not_violates hp h.phase hhonest.1
      | _ => trivial
    · exact ih (h.step hC hp hcore hhonest.1 hkept.1 hm)
        (fun w hw => hcores w (List.mem_cons_of_mem _ hw)) (hhonest.2 m' hm) (hkept.2 m' hm)

end Steps

/-- The core of a node, with a clock. -/
def nodeClockedCore (E : Env) (fuel : ℕ) : ProtocolCore (ℕ × Node) :=
  clockedCore fun now => nodeCore E now fuel

/-- On a new connection to an honest peer, whatever the other threads do with the lock, the core and the
flags, no delivery violates the protocol if the ids of a chain request stay known until it is answered. -/
theorem honest_peer_not_dropped (E : Env) (cps : Checkpoints) (fuel : ℕ) {p : PeerChain}
    (hp : p.Valid E) (w : World (ℕ × Node)) (hw : Reachable E cps w.core.2) (isIncome : Bool)
    (es : List (SharedEvent (ℕ × Node))) (hcores : ∀ w, .elsewhere w ∈ es → Reachable E cps w.core.2)
    (hhonest : Throughout E (nodeClockedCore E fuel) (OnDelivery (Honest p)) (.connect w isIncome) es)
    (hkept : Throughout E (nodeClockedCore E fuel) (StayKnown (nodeClockedCore E fuel))
      (.connect w isIncome) es) :
    Throughout E (nodeClockedCore E fuel)
      (OnDelivery fun s d => ¬Violates E (nodeClockedCore E fuel) s d) (.connect w isIncome) es :=
  throughout_not_violates (.clocked fun now => soundCore_nodeCore E cps fuel now) hp
    ⟨BatchLock.exclusive_init, rfl, hw, .quiet nofun rfl rfl ⟨rfl, rfl⟩⟩ hcores hhonest hkept

def sampleClockedWorld (n : Node) : World (ℕ × Node) where
  core := (0, n)
  exclusiveBatchActive := false
  synchronized := true
  beenSynchronized := true
  stop := fun _ => false

/-- A peer with the blocks of `n`. -/
def samplePeer (n : Node) : PeerChain where
  blocks := n.blocks.map fun bei =>
    (getBlockHash sampleEnv bei.bl, ⟨(blockToBlob bei.bl).getD [], []⟩)

/-- The peer says how high it is, the callback asks it for its chain, and another connection has a batch
that leaves the core at `n'` before the peer answers from its block `start` on. -/
def sampleChainExchange (p : PeerChain) (n' : Node) (start : ℕ) : List (SharedEvent (ℕ × Node)) :=
  [.deliver (.syncData ⟨UInt64.ofNat p.blocks.length, p.ids.getLastD nullHash, 0, []⟩ true true),
    .deliver .callback, .thread 1 .call, .thread 1 .startBatch, .elsewhere (sampleClockedWorld n'),
    .thread 1 .finishBatch, .thread 1 .ret,
    .deliver (.responseChainEntry
      ⟨UInt64.ofNat start, UInt64.ofNat p.blocks.length, p.ids.drop start⟩)]

def sampleObjects (p : PeerChain) (start : ℕ) : SharedEvent (ℕ × Node) :=
  .deliver (.responseGetObjects
    ⟨[], (p.blocks.drop start).map Prod.snd, [], UInt64.ofNat p.blocks.length⟩)

def sampleConnection (n : Node) : Shared (ℕ × Node) := .connect (sampleClockedWorld n) true

/-- A node gets the block that its peer has on top of its own, with a batch in between. -/
theorem honest_peer_sample : ∃ n m, sampleNode ∅ 2 = some n ∧ sampleNode ∅ 3 = some m ∧
    Throughout sampleEnv (nodeClockedCore sampleEnv 1)
      (OnDelivery fun s d => ¬Violates sampleEnv (nodeClockedCore sampleEnv 1) s d) (sampleConnection n)
      (sampleChainExchange (samplePeer m) n 2 ++ [sampleObjects (samplePeer m) 3]) := by
  have h : (sampleNode ∅ 2).bind (fun n => (sampleNode ∅ 3).map fun m =>
      let p := samplePeer m
      let es := sampleChainExchange p n 2 ++ [sampleObjects p 3]
      decide p.ids.Nodup &&
      decide (∀ x ∈ p.blocks, ∃ b ∈ parseAndValidateBlockFromBlob x.2.block,
        getBlockHash sampleEnv b = x.1 ∧ b.txHashes.length = x.2.txs.length) &&
      decide (Throughout sampleEnv (nodeClockedCore sampleEnv 1) (OnDelivery (Honest p))
        (sampleConnection n) es) &&
      decide (Throughout sampleEnv (nodeClockedCore sampleEnv 1)
        (StayKnown (nodeClockedCore sampleEnv 1)) (sampleConnection n) es)) = some true := by
    decide +kernel
  obtain ⟨n, hn, h⟩ := Option.bind_eq_some_iff.mp h
  obtain ⟨m, hm, h⟩ := Option.map_eq_some_iff.mp h
  simp only [Bool.and_eq_true, decide_eq_true_eq] at h
  obtain ⟨⟨⟨hnodup, hblock⟩, hhonest⟩, hkept⟩ := h
  refine ⟨n, m, hn, hm, ?_⟩
  refine honest_peer_not_dropped sampleEnv ∅ 1 ⟨hnodup, hblock⟩ _ (reachable_sampleNode hn) true _ ?_
    hhonest hkept
  intro w hw
  obtain rfl : w = sampleClockedWorld n := by
    simpa [sampleChainExchange, sampleObjects] using hw
  exact reachable_sampleNode hn

/-- While the peer is asked with the ids of the main chain, another connection sends a branch whose
second block pays too much. The switch back cannot pop the first, which pays to a script: the blocks of
the main chain are in no index any more, and the peer is dropped for its answer from one of them on. -/
theorem forgotten_id_drops : ∃ n n' m, sampleNode ∅ 2 = some n ∧ sampleNode ∅ 3 = some m ∧
    (∃ branch : List Block, run sampleEnv n (branch.map fun b => .block 0 2 b) = some n') ∧
    (samplePeer m).Valid sampleEnv ∧
    (∀ w, .elsewhere w ∈ sampleChainExchange (samplePeer m) n' 2 → Reachable sampleEnv ∅ w.core.2) ∧
    Throughout sampleEnv (nodeClockedCore sampleEnv 1) (OnDelivery (Honest (samplePeer m)))
      (sampleConnection n) (sampleChainExchange (samplePeer m) n' 2) ∧
    ¬Throughout sampleEnv (nodeClockedCore sampleEnv 1)
      (OnDelivery fun s d => ¬Violates sampleEnv (nodeClockedCore sampleEnv 1) s d)
      (sampleConnection n) (sampleChainExchange (samplePeer m) n' 2) ∧
    ∃ m', (sampleChainExchange (samplePeer m) n' 2).foldlM
        (Shared.step sampleEnv (nodeClockedCore sampleEnv 1)) (sampleConnection n) = some m' ∧
      m'.session.context.dropped = true := by
  have h : (sampleNode ∅ 2).bind (fun n => (sampleNode ∅ 3).bind fun m =>
      (sampleNode ∅ 0).bind fun n₀ => (scriptFork n₀).bind fun branch =>
      (run sampleEnv n (branch.map fun b => .block 0 2 b)).map fun n' =>
      let p := samplePeer m
      decide p.ids.Nodup &&
      decide (∀ x ∈ p.blocks, ∃ b ∈ parseAndValidateBlockFromBlob x.2.block,
        getBlockHash sampleEnv b = x.1 ∧ b.txHashes.length = x.2.txs.length) &&
      decide (Throughout sampleEnv (nodeClockedCore sampleEnv 1) (OnDelivery (Honest p))
        (sampleConnection n) (sampleChainExchange p n' 2)) &&
      decide (¬Throughout sampleEnv (nodeClockedCore sampleEnv 1)
        (OnDelivery fun s d => ¬Violates sampleEnv (nodeClockedCore sampleEnv 1) s d)
        (sampleConnection n) (sampleChainExchange p n' 2)) &&
      ((sampleChainExchange p n' 2).foldlM (Shared.step sampleEnv (nodeClockedCore sampleEnv 1))
        (sampleConnection n)).isSome) = some true := by decide +kernel
  obtain ⟨n, hn, h⟩ := Option.bind_eq_some_iff.mp h
  obtain ⟨m, hm, h⟩ := Option.bind_eq_some_iff.mp h
  obtain ⟨n₀, -, h⟩ := Option.bind_eq_some_iff.mp h
  obtain ⟨branch, -, h⟩ := Option.bind_eq_some_iff.mp h
  obtain ⟨n', hn', h⟩ := Option.map_eq_some_iff.mp h
  simp only [Bool.and_eq_true, decide_eq_true_eq] at h
  obtain ⟨⟨⟨⟨hnodup, hblock⟩, hhonest⟩, hviolates⟩, hends⟩ := h
  obtain ⟨m', hm'⟩ := Option.isSome_iff_exists.mp hends
  refine ⟨n, n', m, hn, hm, ⟨branch, hn'⟩, ⟨hnodup, hblock⟩, ?_, hhonest, hviolates, m', hm',
    Shared.run_dropped hm' (.inr hviolates)⟩
  intro w hw
  obtain rfl : w = sampleClockedWorld n' := by simpa [sampleChainExchange] using hw
  exact (reachable_sampleNode hn).run hn'

end Session

end Boolberry
