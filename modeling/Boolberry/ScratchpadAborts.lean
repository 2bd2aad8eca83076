import Boolberry.Outcomes

/-!
# The scratchpad and aborted calls

`add_new_block` aborts the database transaction when an exception reaches it. The
scratchpad of the database goes back to what it was, the one in memory keeps every
push and pop the call has made before. An exception within `handle_alternative_block`
does not reach it: what was done so far is committed.
-/

namespace Boolberry
open KeyValue

/-- A call of the scratchpad wrapper. -/
inductive ScratchpadOp where
  | push (b : Block)
  | pop (b : Block)

def ScratchpadOp.apply (E : Env) (w : ScratchpadWrapper) : ScratchpadOp → ScratchpadWrapper
  | .push b => w.pushBlockScratchpadData E b
  | .pop b => (w.popBlockScratchpadData E b).2

def applyOps (E : Env) (w : ScratchpadWrapper) (ops : List ScratchpadOp) : ScratchpadWrapper :=
  ops.foldl (ScratchpadOp.apply E) w

section Ops

variable (E : Env) (now : ℕ)

/-- `handle_block_to_main_chain` pushes the block when nothing is left that can fail. -/
def handleBlockOps (bvc : BlockVerificationContext) (n : Node) (bl : Block) : List ScratchpadOp :=
  if (handleBlockToMainChain E now bvc n bl).1 then [.push bl] else []

def popBlockOps (n : Node) : List ScratchpadOp :=
  if n.blocks.length ≤ 1 then []
  else
    match n.blocks.getLast? with
    | none => []
    | some bei => [.pop bei.bl]

def popBlocksOps (height : ℕ) : ℕ → Node → List ScratchpadOp
  | 0, _ => []
  | k + 1, n =>
      match n.blocks[height + k]? with
      | none => []
      | some _ =>
          let r := popBlockFromBlockchain E now n
          popBlockOps n ++ if r.1 then popBlocksOps height k r.2 else []

def returnOriginalOps : List Block → Node → List ScratchpadOp
  | [], _ => []
  | bl :: l, n =>
      let r := handleBlockToMainChain E now {} n bl
      handleBlockOps E now {} n bl ++
        if r.1 && r.2.1.addedToMainChain then returnOriginalOps l r.2.2 else []

def rollbackOps (n : Node) (originalChain : List Block) (rollbackHeight : ℕ) : List ScratchpadOp :=
  popBlocksOps E now rollbackHeight (n.blocks.length - rollbackHeight) n ++
    match popBlocks E now rollbackHeight (n.blocks.length - rollbackHeight) n [] with
    | .error _ => []
    | .ok (_, n) => returnOriginalOps E now originalChain n

def connectOps (disconnectedChain : List Block) (splitHeight : ℕ) :
    AltChain → Node → List ScratchpadOp
  | [], _ => []
  | chEnt :: rest, n =>
      let r := handleBlockToMainChain E now {} n chEnt.2.bl
      handleBlockOps E now {} n chEnt.2.bl ++
        if r.1 && r.2.1.addedToMainChain then connectOps disconnectedChain splitHeight rest r.2.2
        else rollbackOps E now r.2.2 disconnectedChain splitHeight

/-- The loop that pushes the old chain, with `ops` for those of `handle`. -/
def pushOldOps (handle : Node → Block → Option (Bool × Node)) (ops : Node → Block → List ScratchpadOp) :
    List Block → Node → List ScratchpadOp
  | [], _ => []
  | bl :: l, n =>
      ops n bl ++
        match handle n bl with
        | some (true, n) => pushOldOps handle ops l n
        | _ => []

def switchOps (handle : Node → Block → Option (Bool × Node)) (ops : Node → Block → List ScratchpadOp)
    (n : Node) (altChain : AltChain) : List ScratchpadOp :=
  match altChain.head? with
  | none => []
  | some front =>
      let splitHeight := front.2.height
      if n.blocks.length ≤ splitHeight then []
      else
        popBlocksOps E now splitHeight (n.blocks.length - splitHeight) n ++
          match popBlocks E now splitHeight (n.blocks.length - splitHeight) n [] with
          | .error _ => []
          | .ok (disconnectedChain, n) =>
              connectOps E now disconnectedChain splitHeight altChain n ++
                match connectAltChain E now disconnectedChain splitHeight altChain n with
                | .error _ => []
                | .ok n =>
                    pushOldOps handle ops disconnectedChain n ++
                      match pushOldChain handle disconnectedChain n with
                      | some (false, n) => rollbackOps E now n disconnectedChain splitHeight
                      | _ => []

def handleAlternativeOps : ℕ → BlockVerificationContext → Node → Block → List ScratchpadOp
  | 0, _, _, _ => []
  | fuel + 1, bvc, n, b =>
      if n.checkpoints.isHeightPassedZone (getBlockHeight b) (n.blocks.length - 1) then []
      else if (n.alternativeChains.get b.prevId).isNone && (n.blocksIndex.get b.prevId).isNone then []
      else
        match altChainOf n.alternativeChains b.prevId with
        | none => []
        | some altChain =>
            match attach E n b.prevId altChain with
            | none => []
            | some a =>
                match addAlternativeBlock E bvc n b a with
                | .error _ => []
                | .ok (altChain, n) =>
                    if topDifficulty n.blocks < topDifficulty (altChain.map Prod.snd) then
                      let handle (n : Node) (b : Block) : Option (Bool × Node) :=
                        (handleAlternativeBlock E now fuel {} n b).map fun r => (r.1, r.2.2)
                      switchOps E now handle (handleAlternativeOps fuel {}) n altChain
                    else []

/-- The pushes and pops of `add_new_block`, in order. -/
def addNewBlockOps (fuel : ℕ) (bvc : BlockVerificationContext) (n : Node) (bl : Block) :
    List ScratchpadOp :=
  if haveBlock n (getBlockHash E bl) then []
  else if bl.prevId ≠ getTopBlockId E n.blocks then
    handleAlternativeOps E now fuel { bvc with addedToMainChain := false } n bl
  else handleBlockOps E now bvc n bl

end Ops

/-- Where an exception cuts a push or a pop, which is made on the vector first and on the database then. -/
inductive Torn where
  | memory (cache : List Hash)
  | database (rdb : List Hash)

/-- What the cut call leaves: the half in which the exception comes may be anything. -/
def Torn.apply (E : Env) (w : ScratchpadWrapper) (op : ScratchpadOp) : Torn → ScratchpadWrapper
  | .memory cache => { w with scratchpadCache := cache }
  | .database rdb => { op.apply E w with rdbScratchpad := rdb }

/-- An exception behind the first `done` pushes and pops, within the next one if `torn` says so. -/
structure Cut where
  done : ℕ
  torn : Option Torn

def Cut.apply (E : Env) (w : ScratchpadWrapper) (ops : List ScratchpadOp) (cut : Cut) :
    ScratchpadWrapper :=
  let w := applyOps E w (ops.take cut.done)
  match ops[cut.done]?, cut.torn with
  | some op, some torn => torn.apply E w op
  | _, _ => w

/-- No push or pop was cut. -/
def Cut.Whole (ops : List ScratchpadOp) (cut : Cut) : Prop :=
  ops[cut.done]? = none ∨ cut.torn.isNone

/-- No push or pop was begun. -/
def Cut.Nothing (ops : List ScratchpadOp) (cut : Cut) : Prop :=
  ops.take cut.done = [] ∧ cut.Whole ops

/-- A switch that was under way rolls back when `handle_alternative_block` has returned false below it.
The rollback starts from `node` and may end in an exception of its own. -/
structure LaterRollback where
  now : ℕ
  node : Node
  originalChain : List Block
  rollbackHeight : ℕ
  cut : Cut

def LaterRollback.ops (E : Env) (r : LaterRollback) : List ScratchpadOp :=
  rollbackOps E r.now r.node r.originalChain r.rollbackHeight

def applyRollbacks (E : Env) (w : ScratchpadWrapper) (rollbacks : List LaterRollback) :
    ScratchpadWrapper :=
  rollbacks.foldl (fun w r => r.cut.apply E w (r.ops E)) w

/-- A call of `add_new_block`: it returns and commits, or an exception reaches its handler, which aborts
the transaction, or one is caught below it (`handle_alternative_block` and
`get_required_donations_value_for_next_block` end in `CATCH_ENTRY_L0`) and the transaction is committed
all the same, if `commit_transaction` does not throw. -/
inductive BlockCall where
  | returns (now fuel : ℕ) (bl : Block)
  | throws (now fuel : ℕ) (bl : Block) (cut : Cut) (atThrow : Node)
  | caught (now fuel : ℕ) (bl : Block) (cut : Cut) (rollbacks : List LaterRollback) (commits : Bool)
      (left : Node)

/-- What is left of `atThrow` when the database is back to what it was in `n`. -/
def aborted (n atThrow : Node) (scratchpadCache : List Hash) : Node :=
  { atThrow with
    blocks := n.blocks
    blocksIndex := n.blocksIndex
    txs := { n.txs with pool := atThrow.txs.pool }
    scratchpad := ⟨scratchpadCache, n.scratchpad.rdbScratchpad⟩
    currentBlockCumulSzLimit := n.currentBlockCumulSzLimit
    currentPrunedRsHeight := n.currentPrunedRsHeight }

/-- The exceptions that reach the handler: for a block off the main chain only those of
`begin_transaction` and `commit_transaction`, in front of all pushes and pops or behind them. -/
def Reaches (E : Env) (n : Node) (bl : Block) (ops : List ScratchpadOp) (cut : Cut) : Prop :=
  bl.prevId = getTopBlockId E n.blocks ∨
    cut.torn.isNone ∧ (cut.done = 0 ∨ ops.length ≤ cut.done)

/-- The exceptions that are caught below: for a block on top of the main chain only that of the required
donation, which comes in front of the push. -/
def Swallowed (E : Env) (n : Node) (bl : Block) (cut : Cut) (rollbacks : List LaterRollback) : Prop :=
  bl.prevId = getTopBlockId E n.blocks → cut.done = 0 ∧ cut.torn.isNone ∧ rollbacks.isEmpty

instance (E : Env) (n : Node) (bl : Block) (ops : List ScratchpadOp) (cut : Cut) :
    Decidable (Reaches E n bl ops cut) := inferInstanceAs (Decidable (_ ∨ _ ∧ _))

instance (E : Env) (n : Node) (bl : Block) (cut : Cut) (rollbacks : List LaterRollback) :
    Decidable (Swallowed E n bl cut rollbacks) := inferInstanceAs (Decidable (_ → _ ∧ _))

def BlockCall.apply (E : Env) (n : Node) : BlockCall → Option Node
  | .returns now fuel bl => (addNewBlock E now fuel {} n bl).map fun r => r.2.2
  | .throws now fuel bl cut atThrow =>
      let ops := addNewBlockOps E now fuel {} n bl
      if Reaches E n bl ops cut then
        some (aborted n atThrow (cut.apply E n.scratchpad ops).scratchpadCache)
      else none
  | .caught now fuel bl cut rollbacks commits left =>
      let w := applyRollbacks E
        (cut.apply E n.scratchpad (addNewBlockOps E now fuel {} n bl)) rollbacks
      if Swallowed E n bl cut rollbacks then
        some (if commits then { left with scratchpad := w } else aborted n left w.scratchpadCache)
      else none

def runCalls (E : Env) : Node → List BlockCall → Option Node
  | n, [] => some n
  | n, c :: l =>
      match c.apply E n with
      | none => none
      | some n' => runCalls E n' l

/-- An abort comes in front of the first push or pop of its call, and no exception that is caught below
cuts one. -/
def BlockCall.Early (E : Env) (n : Node) : BlockCall → Prop
  | .returns _ _ _ => True
  | .throws now fuel bl cut _ => cut.Nothing (addNewBlockOps E now fuel {} n bl)
  | .caught now fuel bl cut rollbacks commits _ =>
      let ops := addNewBlockOps E now fuel {} n bl
      if commits then cut.Whole ops ∧ ∀ r ∈ rollbacks, r.cut.Whole (r.ops E)
      else cut.Nothing ops ∧ ∀ r ∈ rollbacks, r.cut.Nothing (r.ops E)

/-- Memory and database hold one scratchpad. -/
def ScratchpadWrapper.Agree (w : ScratchpadWrapper) : Prop := w.scratchpadCache = w.rdbScratchpad

section Trace

variable {E : Env} {now : ℕ}

theorem applyOps_append (w : ScratchpadWrapper) (ops ops' : List ScratchpadOp) :
    applyOps E w (ops ++ ops') = applyOps E (applyOps E w ops) ops' := List.foldl_append

theorem applyOps_nil (w : ScratchpadWrapper) : applyOps E w [] = w := rfl

theorem addBlockTransactions_scratchpad (bvc : BlockVerificationContext) (n : Node) (bl : Block)
    (diff : WideDifficulty) :
    ((addBlockTransactions E now bvc n bl diff).1 = false ∧
      (addBlockTransactions E now bvc n bl diff).2.2.scratchpad = n.scratchpad) ∨
    ((addBlockTransactions E now bvc n bl diff).1 = true ∧
      (addBlockTransactions E now bvc n bl diff).2.2.scratchpad =
        n.scratchpad.pushBlockScratchpadData E bl) := by
  unfold addBlockTransactions
  simp only
  cases addTransactionFromBlock E n.txs bl.minerTx (getTransactionHash E bl.minerTx)
      n.blocks.length with
  | error s => exact Or.inl ⟨rfl, rfl⟩
  | ok s =>
    simp only
    cases processTransactions (n.view E now) bl.txHashes ⟨s, 0, 0, getObjectBlobsize bl.minerTx⟩ with
    | error f =>
      refine Or.inl ⟨rfl, ?_⟩
      dsimp only
      split_ifs
      · exact (congrArg ChainStores.scratchpad (addBlockAsInvalid_stores _ _ _).1).trans rfl
      · rfl
    | ok st =>
      simp only [finishBlock]
      cases validateMinerTransaction E n.blocks bl st.cumulativeBlockSize st.feeSummary
          (generatedCoins n.blocks) with
      | none => exact Or.inl ⟨rfl, rfl⟩
      | some q =>
        cases n.blocksIndex.get (getBlockHash E bl) with
        | some _ => exact Or.inl ⟨rfl, rfl⟩
        | none => exact Or.inr ⟨rfl, rfl⟩

theorem handleBlock_scratchpad (bvc : BlockVerificationContext) (n : Node) (bl : Block) :
    (handleBlockToMainChain E now bvc n bl).2.2.scratchpad =
      applyOps E n.scratchpad (handleBlockOps E now bvc n bl) := by
  have hcases : ((handleBlockToMainChain E now bvc n bl).1 = false ∧
      (handleBlockToMainChain E now bvc n bl).2.2.scratchpad = n.scratchpad) ∨
    ((handleBlockToMainChain E now bvc n bl).1 = true ∧
      (handleBlockToMainChain E now bvc n bl).2.2.scratchpad =
        n.scratchpad.pushBlockScratchpadData E bl) := by
    have hs := congrArg ChainStores.scratchpad (checkBlockTimestampMain_spec E now n bl).2.1
    unfold handleBlockToMainChain
    simp only
    generalize checkBlockTimestampMain E now n bl = r at hs ⊢
    obtain ⟨ok, n₁⟩ := r
    simp only at hs ⊢
    split_ifs
    · exact Or.inl ⟨rfl, rfl⟩
    · exact Or.inl ⟨rfl, hs⟩
    · exact Or.inl ⟨rfl, hs⟩
    · exact Or.inl ⟨rfl, hs⟩
    · exact Or.inl ⟨rfl, hs⟩
    · exact Or.inl ⟨rfl, hs⟩
    · rw [← hs]
      exact addBlockTransactions_scratchpad bvc _ bl _
  unfold handleBlockOps
  rcases hcases with ⟨hr, hs⟩ | ⟨hr, hs⟩
  · rw [hr, hs, if_neg (by simp), applyOps_nil]
  · rw [hr, hs, if_pos rfl]
    rfl

theorem popBlock_scratchpad (E : Env) (now : ℕ) (n : Node) :
    (popBlockFromBlockchain E now n).2.scratchpad = applyOps E n.scratchpad (popBlockOps n) := by
  unfold popBlockFromBlockchain popBlockOps
  split_ifs with hlen
  · rfl
  cases n.blocks.getLast? with
  | none => rfl
  | some bei =>
    dsimp only
    split_ifs <;> rfl

/-- A loop that pops leaves what its pops make of the scratchpad, whether it fails or not. -/
theorem popBlocks_scratchpad (E : Env) (now : ℕ) (height k : ℕ) (n : Node) (popped : List Block) :
    match popBlocks E now height k n popped with
    | .error n' => n'.scratchpad = applyOps E n.scratchpad (popBlocksOps E now height k n)
    | .ok r => r.2.scratchpad = applyOps E n.scratchpad (popBlocksOps E now height k n) := by
  induction k generalizing n popped with
  | zero => rfl
  | succ k ih =>
    unfold popBlocks popBlocksOps
    cases n.blocks[height + k]? with
    | none => rfl
    | some bei =>
      dsimp only
      cases hr : (popBlockFromBlockchain E now n).1 with
      | false =>
        simp only [Bool.false_eq_true, if_false, List.append_nil]
        exact popBlock_scratchpad E now n
      | true =>
        simp only [if_true, applyOps_append, ← popBlock_scratchpad E now n]
        exact ih _ _

theorem returnOriginalChain_scratchpad (l : List Block) (n : Node) :
    (returnOriginalChain E now l n).2.scratchpad =
      applyOps E n.scratchpad (returnOriginalOps E now l n) := by
  induction l generalizing n with
  | nil => rfl
  | cons bl l ih =>
    unfold returnOriginalChain returnOriginalOps
    simp only [applyOps_append, ← handleBlock_scratchpad]
    split_ifs
    · exact ih _
    · rfl

theorem rollback_scratchpad (n : Node) (originalChain : List Block) (height : ℕ) :
    (rollbackBlockchainSwitching E now n originalChain height).2.scratchpad =
      applyOps E n.scratchpad (rollbackOps E now n originalChain height) := by
  have hpop := popBlocks_scratchpad E now height (n.blocks.length - height) n []
  unfold rollbackBlockchainSwitching rollbackOps
  rw [applyOps_append]
  cases hr : popBlocks E now height (n.blocks.length - height) n [] with
  | error n' =>
    rw [hr] at hpop
    exact hpop
  | ok r =>
    rw [hr] at hpop
    rw [← hpop]
    exact returnOriginalChain_scratchpad originalChain r.2

theorem orphanRest_scratchpad (n : Node) (rest : AltChain) :
    (orphanRest n rest).scratchpad = n.scratchpad := by
  unfold orphanRest
  cases rest.head? with
  | none => rfl
  | some first =>
    simp only
    induction rest generalizing n with
    | nil => rfl
    | cons e l ih =>
      rw [List.foldl_cons, ih]
      exact congrArg ChainStores.scratchpad (addBlockAsInvalid_stores n first.2 first.1).1

theorem connectAltChain_scratchpad (E : Env) (now : ℕ) (disconnectedChain : List Block) (height : ℕ)
    (altChain : AltChain) (n : Node) :
    match connectAltChain E now disconnectedChain height altChain n with
    | .error n' =>
        n'.scratchpad = applyOps E n.scratchpad (connectOps E now disconnectedChain height altChain n)
    | .ok n' =>
        n'.scratchpad =
          applyOps E n.scratchpad (connectOps E now disconnectedChain height altChain n) := by
  induction altChain generalizing n with
  | nil => rfl
  | cons chEnt rest ih =>
    unfold connectAltChain connectOps
    simp only [applyOps_append, ← handleBlock_scratchpad]
    generalize handleBlockToMainChain E now {} n chEnt.2.bl = r
    split_ifs
    · exact ih _
    · dsimp only
      rw [orphanRest_scratchpad, ← rollback_scratchpad]
      exact congrArg ChainStores.scratchpad (addBlockAsInvalid_stores _ _ _).1

/-- What is known of `handle_alternative_block` in the loop over the old chain. -/
def Traced (E : Env) (handle : Node → Block → Option (Bool × Node))
    (ops : Node → Block → List ScratchpadOp) : Prop :=
  ∀ n b r, handle n b = some r → r.2.scratchpad = applyOps E n.scratchpad (ops n b)

theorem pushOldChain_scratchpad {handle : Node → Block → Option (Bool × Node)}
    {ops : Node → Block → List ScratchpadOp} (hh : Traced E handle ops) {l : List Block} {n : Node}
    {r : Bool × Node} (h : pushOldChain handle l n = some r) :
    r.2.scratchpad = applyOps E n.scratchpad (pushOldOps handle ops l n) := by
  induction l generalizing n with
  | nil =>
    obtain rfl := Option.some.inj h
    rfl
  | cons bl l ih =>
    unfold pushOldChain at h
    unfold pushOldOps
    rw [applyOps_append]
    cases hb : handle n bl with
    | none => simp [hb] at h
    | some q =>
      obtain ⟨ok, n'⟩ := q
      rw [← hh n bl _ hb]
      rw [hb] at h
      cases ok with
      | true => exact ih h
      | false =>
        obtain rfl := Option.some.inj h
        rfl

theorem switch_scratchpad {handle : Node → Block → Option (Bool × Node)}
    {ops : Node → Block → List ScratchpadOp} (hh : Traced E handle ops) {n : Node}
    {altChain : AltChain} {r : Bool × Node}
    (h : switchToAlternativeBlockchain E now handle n altChain = some r) :
    r.2.scratchpad = applyOps E n.scratchpad (switchOps E now handle ops n altChain) := by
  unfold switchToAlternativeBlockchain at h
  unfold switchOps
  cases hhead : altChain.head? with
  | none =>
    rw [hhead] at h
    obtain rfl := Option.some.inj h
    rfl
  | some front =>
    simp only [hhead] at h ⊢
    split_ifs at h ⊢ with hlen
    · obtain rfl := Option.some.inj h
      rfl
    -- the three parts of a switch one after the other: pops, pushes of the branch, the old blocks again
    have hpop := popBlocks_scratchpad E now front.2.height
      (n.blocks.length - front.2.height) n []
    rw [applyOps_append]
    cases hr : popBlocks E now front.2.height (n.blocks.length - front.2.height) n [] with
    | error n₁ =>
      rw [hr] at hpop
      simp only [hr] at h ⊢
      obtain rfl := Option.some.inj h
      exact hpop
    | ok q =>
      obtain ⟨disconnectedChain, n₁⟩ := q
      rw [hr] at hpop
      simp only [hr] at h ⊢
      rw [← hpop, applyOps_append]
      have hconnect := connectAltChain_scratchpad E now disconnectedChain
        front.2.height altChain n₁
      cases hc : connectAltChain E now disconnectedChain front.2.height altChain n₁ with
      | error n₂ =>
        rw [hc] at hconnect
        simp only [hc] at h ⊢
        obtain rfl := Option.some.inj h
        exact hconnect
      | ok n₂ =>
        rw [hc] at hconnect
        simp only [hc] at h ⊢
        rw [← hconnect, applyOps_append]
        cases hold : pushOldChain handle disconnectedChain n₂ with
        | none => simp [hold] at h
        | some q =>
          obtain ⟨ok, n₃⟩ := q
          simp only [hold] at h ⊢
          rw [← pushOldChain_scratchpad hh hold]
          cases ok with
          | false =>
            obtain rfl := Option.some.inj h
            exact rollback_scratchpad n₃ disconnectedChain front.2.height
          | true =>
            obtain rfl := Option.some.inj h
            rfl

theorem handleAlternativeBlock_scratchpad {fuel : ℕ} {bvc : BlockVerificationContext} {n : Node}
    {b : Block} {r : Bool × BlockVerificationContext × Node}
    (h : handleAlternativeBlock E now fuel bvc n b = some r) :
    r.2.2.scratchpad = applyOps E n.scratchpad (handleAlternativeOps E now fuel bvc n b) := by
  induction fuel generalizing bvc n b r with
  | zero => simp [handleAlternativeBlock] at h
  | succ fuel ih =>
    -- the calls a switch makes for the old blocks have less fuel
    have hh : Traced E (fun n b => (handleAlternativeBlock E now fuel {} n b).map fun r => (r.1, r.2.2))
        (handleAlternativeOps E now fuel {}) := by
      intro n b r hr
      obtain ⟨q, hq, rfl⟩ := Option.map_eq_some_iff.mp hr
      exact ih hq
    unfold handleAlternativeBlock at h
    unfold handleAlternativeOps
    split_ifs at h ⊢ with hpassed horphan
    · obtain rfl := Option.some.inj h
      rfl
    · obtain rfl := Option.some.inj h
      rfl
    cases halt : altChainOf n.alternativeChains b.prevId with
    | none => simp [halt] at h
    | some altChain =>
      simp only [halt] at h ⊢
      cases ha : attach E n b.prevId altChain with
      | none =>
        simp only [ha] at h ⊢
        obtain rfl := Option.some.inj h
        rfl
      | some a =>
        simp only [ha] at h ⊢
        have heffect := addAlternativeBlock_effect E bvc n b a
        cases hadd : addAlternativeBlock E bvc n b a with
        | error q =>
          rw [hadd] at heffect
          simp only [hadd] at h ⊢
          obtain rfl := Option.some.inj h
          exact congrArg ChainStores.scratchpad heffect.2.1
        | ok q =>
          obtain ⟨altChain', n₁⟩ := q
          rw [hadd] at heffect
          have hs : n₁.scratchpad = n.scratchpad := congrArg ChainStores.scratchpad heffect.1
          simp only [hadd] at h ⊢
          rw [← hs]
          split_ifs at h ⊢
          · cases hsw : switchToAlternativeBlockchain E now
                (fun n b => (handleAlternativeBlock E now fuel {} n b).map fun r => (r.1, r.2.2))
                n₁ altChain' with
            | none => simp [hsw] at h
            | some q =>
              obtain ⟨ok, n₂⟩ := q
              rw [hsw] at h
              rw [← switch_scratchpad hh hsw]
              cases ok <;> obtain rfl := Option.some.inj h <;> rfl
          · obtain rfl := Option.some.inj h
            rfl

/-- The scratchpad after a call that returns is the one before it with the call's pushes and pops. -/
theorem addNewBlock_scratchpad {fuel : ℕ} {bvc : BlockVerificationContext} {n : Node} {bl : Block}
    {r : Bool × BlockVerificationContext × Node} (h : addNewBlock E now fuel bvc n bl = some r) :
    r.2.2.scratchpad = applyOps E n.scratchpad (addNewBlockOps E now fuel bvc n bl) := by
  unfold addNewBlock at h
  unfold addNewBlockOps
  split_ifs at h ⊢
  · obtain rfl := Option.some.inj h
    rfl
  · exact handleAlternativeBlock_scratchpad h
  · obtain rfl := Option.some.inj h
    exact handleBlock_scratchpad bvc n bl

end Trace

section Cuts

variable {E : Env} {w : ScratchpadWrapper} {ops : List ScratchpadOp} {cut : Cut}

theorem ScratchpadWrapper.Agree.applyOps (h : w.Agree) (ops : List ScratchpadOp) :
    (Boolberry.applyOps E w ops).Agree := by
  induction ops generalizing w with
  | nil => exact h
  | cons op ops ih =>
    refine ih (w := op.apply E w) ?_
    obtain ⟨cache, rdb⟩ := w
    obtain rfl : cache = rdb := h
    cases op <;> rfl

theorem Cut.Whole.apply (h : cut.Whole ops) :
    cut.apply E w ops = applyOps E w (ops.take cut.done) := by
  unfold Cut.apply
  dsimp only
  rcases h with h | h
  · rw [h]
  · rw [Option.isNone_iff_eq_none.mp h]
    cases ops[cut.done]? <;> rfl

theorem Cut.Nothing.apply (h : cut.Nothing ops) : cut.apply E w ops = w := by
  rw [h.2.apply, h.1, applyOps_nil]

theorem applyRollbacks_agree {rollbacks : List LaterRollback} (h : w.Agree)
    (hwhole : ∀ r ∈ rollbacks, r.cut.Whole (r.ops E)) : (applyRollbacks E w rollbacks).Agree := by
  induction rollbacks generalizing w with
  | nil => exact h
  | cons r l ih =>
    refine ih (w := r.cut.apply E w (r.ops E)) ?_ fun r' hr' => hwhole r' (List.mem_cons_of_mem _ hr')
    rw [(hwhole r List.mem_cons_self).apply]
    exact h.applyOps _

theorem applyRollbacks_nothing {rollbacks : List LaterRollback}
    (h : ∀ r ∈ rollbacks, r.cut.Nothing (r.ops E)) : applyRollbacks E w rollbacks = w := by
  induction rollbacks with
  | nil => rfl
  | cons r l ih =>
    change applyRollbacks E (r.cut.apply E w (r.ops E)) l = w
    rw [(h r List.mem_cons_self).apply]
    exact ih fun r' hr' => h r' (List.mem_cons_of_mem _ hr')

end Cuts

/-- A step keeps the two scratchpads equal unless it aborts behind a push or a pop or commits one that
was cut. -/
theorem agree_apply {E : Env} {n n' : Node} {c : BlockCall} (h : n.scratchpad.Agree)
    (hc : c.Early E n) (hn : c.apply E n = some n') : n'.scratchpad.Agree := by
  cases c with
  | returns now fuel bl =>
    obtain ⟨r, hr, rfl⟩ := Option.map_eq_some_iff.mp hn
    rw [addNewBlock_scratchpad hr]
    exact h.applyOps _
  | throws now fuel bl cut atThrow =>
    have hc : cut.Nothing (addNewBlockOps E now fuel {} n bl) := hc
    simp only [BlockCall.apply, hc.apply] at hn
    split_ifs at hn
    obtain rfl := Option.some.inj hn
    exact h
  | caught now fuel bl cut rollbacks commits left =>
    simp only [BlockCall.apply] at hn
    split_ifs at hn with hs hcommits
    · obtain rfl := Option.some.inj hn
      obtain ⟨hcut, hrollbacks⟩ : cut.Whole _ ∧ _ := by
        simpa only [BlockCall.Early, hcommits, if_true] using hc
      refine applyRollbacks_agree ?_ hrollbacks
      rw [hcut.apply]
      exact h.applyOps _
    · obtain rfl := Option.some.inj hn
      obtain ⟨hcut, hrollbacks⟩ : cut.Nothing _ ∧ _ := by
        simpa only [BlockCall.Early, hcommits, Bool.false_eq_true, if_false] using hc
      rw [hcut.apply, applyRollbacks_nothing hrollbacks]
      exact h

theorem runCalls_append (E : Env) (n : Node) (l l' : List BlockCall) :
    runCalls E n (l ++ l') = (runCalls E n l).bind fun n' => runCalls E n' l' := by
  induction l generalizing n with
  | nil => rfl
  | cons c l ih =>
    simp only [List.cons_append, runCalls]
    cases c.apply E n with
    | none => rfl
    | some n' => exact ih n'

theorem agree_initNode {E : Env} {now : ℕ} {cps : Checkpoints} {n : Node}
    (h : initNode E now cps = some n) : n.scratchpad.Agree := by
  obtain ⟨c, -, -, -, hrep, -⟩ := initNode_spec h
  have hs : n.scratchpad = _ := hrep.scratchpad
  rw [hs]
  rfl

/-- In every run in which no call aborts behind a push or a pop and none commits one that an exception
cut, memory and database hold one scratchpad in every state. -/
theorem scratchpads_agree (E : Env) (cps : Checkpoints) (now : ℕ) (n₀ : Node)
    (calls : List BlockCall) (hinit : initNode E now cps = some n₀)
    (hearly : ∀ k n c, runCalls E n₀ (calls.take k) = some n → calls[k]? = some c → c.Early E n) :
    ∀ k n, runCalls E n₀ (calls.take k) = some n → n.scratchpad.Agree := by
  intro k
  induction k with
  | zero =>
    intro n hn
    obtain rfl := Option.some.inj hn
    exact agree_initNode hinit
  | succ k ih =>
    intro n' hn'
    rw [List.take_add_one, runCalls_append] at hn'
    obtain ⟨n, hn, hstep⟩ := Option.bind_eq_some_iff.mp hn'
    cases hc : calls[k]? with
    | none =>
      rw [hc] at hstep
      obtain rfl := Option.some.inj hstep
      exact ih n hn
    | some c =>
      rw [hc, Option.toList_some] at hstep
      unfold runCalls at hstep
      cases ha : c.apply E n with
      | none => simp [ha] at hstep
      | some n₁ =>
        rw [ha] at hstep
        obtain rfl := Option.some.inj hstep
        exact agree_apply (ih n hn) (hearly k n c hn hc) ha

/-- A call that throws in front of its push, and both sides of a fork. -/
def abortRun (n₀ : Node) (a₁ b₁ : Block) : List BlockCall :=
  [.throws 0 2 a₁ ⟨0, none⟩ n₀, .returns 0 2 a₁, .returns 0 2 b₁]

/-- The exception ends the switch behind the scratchpad of its first pop. -/
theorem scratchpads_agree_sample : ∃ n₀ a₁ b₁ b₂ n₁ n,
    initNode sampleEnv 0 ∅ = some n₀ ∧ runCalls sampleEnv n₀ (abortRun n₀ a₁ b₁) = some n₁ ∧
    (addNewBlockOps sampleEnv 0 2 {} n₁ b₂).length = 3 ∧
    runCalls sampleEnv n₀ (abortRun n₀ a₁ b₁ ++ [.caught 0 2 b₂ ⟨1, none⟩ [] true n₁]) = some n ∧
    n.scratchpad ≠ n₁.scratchpad ∧ n.scratchpad.Agree := by
  have h : ((initNode sampleEnv 0 ∅).bind fun n₀ => (sampleFork n₀).bind fun (a₁, b₁, b₂) =>
      (runCalls sampleEnv n₀ (abortRun n₀ a₁ b₁)).bind fun n₁ =>
      (runCalls sampleEnv n₀ (abortRun n₀ a₁ b₁ ++ [.caught 0 2 b₂ ⟨1, none⟩ [] true n₁])).map fun n =>
        decide ((addNewBlockOps sampleEnv 0 2 {} n₁ b₂).length = 3) &&
          decide (n.scratchpad.scratchpadCache ≠ n₁.scratchpad.scratchpadCache)) = some true := by
    decide +kernel
  obtain ⟨n₀, hinit, h⟩ := Option.bind_eq_some_iff.mp h
  obtain ⟨⟨a₁, b₁, b₂⟩, -, h⟩ := Option.bind_eq_some_iff.mp h
  obtain ⟨n₁, hrun₁, h⟩ := Option.bind_eq_some_iff.mp h
  obtain ⟨n, hrun, h⟩ := Option.map_eq_some_iff.mp h
  simp only [Bool.and_eq_true, decide_eq_true_eq] at h
  refine ⟨n₀, a₁, b₁, b₂, n₁, n, hinit, hrun₁, h.1, hrun,
    fun hs => h.2 (congrArg ScratchpadWrapper.scratchpadCache hs),
    scratchpads_agree sampleEnv ∅ 0 n₀
      (abortRun n₀ a₁ b₁ ++ [BlockCall.caught 0 2 b₂ ⟨1, none⟩ [] true n₁]) hinit ?_ 4 n hrun⟩
  intro k n' c _ hc
  match k with
  | 0 =>
    obtain rfl := Option.some.inj hc
    exact ⟨rfl, Or.inr rfl⟩
  | 1 | 2 =>
    obtain rfl := Option.some.inj hc
    trivial
  | 3 =>
    obtain rfl := Option.some.inj hc
    exact ⟨Or.inr rfl, fun r hr => absurd hr List.not_mem_nil⟩
  | k + 4 => simp [abortRun] at hc

/-- An exception behind the push of a block: the scratchpad in memory keeps its entries. -/
theorem scratchpad_left_by_throw : ¬∀ (E : Env) (cps : Checkpoints) (now : ℕ) (n₀ : Node)
    (calls : List BlockCall) (n : Node), initNode E now cps = some n₀ →
    runCalls E n₀ calls = some n → n.scratchpad.Agree := by
  intro hclaim
  have h : ((initNode sampleEnv 0 ∅).bind fun n₀ =>
      let bl := sampleBlock sampleEnv n₀.blocks 0 [] 0 sampleKey
      (runCalls sampleEnv n₀ [.throws 0 1 bl ⟨1, none⟩ n₀]).map fun n =>
        decide (n.scratchpad.scratchpadCache = n.scratchpad.rdbScratchpad)) = some false := by
    decide +kernel
  obtain ⟨n₀, hinit, h⟩ := Option.bind_eq_some_iff.mp h
  obtain ⟨n, hrun, h⟩ := Option.map_eq_some_iff.mp h
  exact of_decide_eq_false h (hclaim sampleEnv ∅ 0 n₀ _ n hinit hrun)

end Boolberry
