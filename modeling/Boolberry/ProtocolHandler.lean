import Boolberry.BinaryArchive
import Boolberry.ChainHistory
import Boolberry.Core

/-!
# The protocol handler

What `t_currency_protocol_handler` does with one connection. The handlers are generic in the
core; what the other connections, the idle loop and the operator do between two of them may
leave the core and the flags of the handler in any state. A core is busy while a batch of
another connection is active in its storage. The heights kept for progress reports and what
is relayed to the other peers are left out.
-/

namespace Boolberry
open KeyValue

def BLOCKS_SYNCHRONIZING_DEFAULT_COUNT : ℕ := 200
def CURRENCY_PROTOCOL_MAX_BLOCKS_REQUEST_COUNT : ℕ := 500
def CURRENCY_PROTOCOL_MAX_TXS_REQUEST_COUNT : ℕ := 500

structure BlockCompleteEntry where
  block : Blob
  txs : List Blob
deriving DecidableEq, Repr

structure NotifyNewBlock where
  b : BlockCompleteEntry
  currentBlockchainHeight : UInt64
  hop : UInt32
deriving DecidableEq, Repr

structure NotifyRequestGetObjects where
  txs : List Hash
  blocks : List Hash
deriving DecidableEq, Repr

structure NotifyResponseGetObjects where
  txs : List Blob
  blocks : List BlockCompleteEntry
  missedIds : List Hash
  currentBlockchainHeight : UInt64
deriving DecidableEq, Repr

structure NotifyResponseChainEntry where
  startHeight : UInt64
  totalHeight : UInt64
  blockIds : List Hash
deriving DecidableEq, Repr

structure CoreSyncData where
  currentHeight : UInt64
  topId : Hash
  lastCheckpointHeight : UInt64
  clientVersion : Blob
deriving DecidableEq, Repr

/-- A message posted to the peer. -/
inductive Notification where
  | requestChain (blockIds : List Hash)
  | requestGetObjects (req : NotifyRequestGetObjects)
  | responseChainEntry (r : NotifyResponseChainEntry)
  | responseGetObjects (rsp : NotifyResponseGetObjects)
deriving DecidableEq, Repr

def Notification.isRequestChain : Notification → Bool
  | .requestChain _ => true
  | _ => false

def Notification.isRequestGetObjects : Notification → Bool
  | .requestGetObjects _ => true
  | _ => false

/-- `t_core`, as far as the handler calls it. A block may be one whose processing does not return. -/
structure ProtocolCore (σ : Type) where
  haveBlock : σ → Hash → Bool
  getCurrentBlockchainHeight : σ → UInt64
  getTopCheckpointHeight : σ → UInt64
  getShortChainHistory : σ → List Hash
  findBlockchainSupplement : σ → List Hash → Option NotifyResponseChainEntry
  handleGetObjects : σ → NotifyRequestGetObjects → Bool × NotifyResponseGetObjects
  handleIncomingTx : σ → Blob → Bool → TxVerificationContext × σ
  handleIncomingBlock : σ → Blob → Option (BlockVerificationContext × σ)

def CURRENCY_MAX_BLOCK_SIZE : ℕ := 500000000
def CURRENCY_MAX_TX_SIZE : ℕ := 1000000000

/-- `get_blocks` for ids: the blocks and the ids that are missed. A wrong index entry ends it. -/
def getBlocks (n : Node) : List Hash → List Block × List Hash
  | [] => ([], [])
  | id :: l =>
      match n.blocksIndex.get id with
      | none =>
          let r := getBlocks n l
          (r.1, id :: r.2)
      | some i =>
          match n.blocks[i]? with
          | none => ([], [])
          | some bei =>
              let r := getBlocks n l
              (bei.bl :: r.1, r.2)

def handleGetObjects (n : Node) (arg : NotifyRequestGetObjects) : Bool × NotifyResponseGetObjects :=
  let blocks := getBlocks n arg.blocks
  let entry (b : Block) : BlockCompleteEntry :=
    ⟨(blockToBlob b).getD [], (getTransactions n b.txHashes).1.map fun t => (txToBlob t).getD []⟩
  let aside := getTransactions n arg.txs
  (true,
    { txs := aside.1.map fun t => (txToBlob t).getD []
      blocks := blocks.1.map entry
      missedIds := blocks.2 ++ (blocks.1.flatMap fun b => (getTransactions n b.txHashes).2) ++ aside.2
      currentBlockchainHeight := UInt64.ofNat n.blocks.length })

/-- `core::handle_incoming_tx` for a blob. -/
def handleIncomingTxBlob (E : Env) (now : ℕ) (n : Node) (txBlob : Blob) (keptByBlock : Bool) :
    TxVerificationContext × Node :=
  if CURRENCY_MAX_TX_SIZE < txBlob.length then ({ verifivationFailed := true }, n)
  else
    match parseAndValidateTxFromBlob txBlob with
    | none => ({ verifivationFailed := true }, n)
    | some tx => (handleIncomingTx E now n tx keptByBlock).2

/-- `core::handle_incoming_block` for a blob. -/
def handleIncomingBlockBlob (E : Env) (now fuel : ℕ) (n : Node) (blockBlob : Blob) :
    Option (BlockVerificationContext × Node) :=
  if CURRENCY_MAX_BLOCK_SIZE < blockBlob.length then some ({ verifivationFailed := true }, n)
  else
    match parseAndValidateBlockFromBlob blockBlob with
    | none => some ({ verifivationFailed := true }, n)
    | some b => (addNewBlock E now fuel {} n b).map Prod.snd

/-- The core of a node. -/
def nodeCore (E : Env) (now fuel : ℕ) : ProtocolCore Node where
  haveBlock := haveBlock
  getCurrentBlockchainHeight n := UInt64.ofNat n.blocks.length
  getTopCheckpointHeight n := UInt64.ofNat n.checkpoints.getTopCheckpointHeight
  getShortChainHistory n := getShortChainHistory E n.blocks
  findBlockchainSupplement n ids := (findBlockchainSupplement E n ids).map fun r =>
    ⟨UInt64.ofNat r.startHeight, UInt64.ofNat r.totalHeight, r.blockIds⟩
  handleGetObjects := handleGetObjects
  handleIncomingTx := handleIncomingTxBlob E now
  handleIncomingBlock := handleIncomingBlockBlob E now fuel

/-- The places where a handler checks whether it has to stop. -/
inductive StopCheck where
  | prevalidation (i : ℕ)
  | block (i : ℕ)
  | tx (i j : ℕ)
  | chainEntry (i : ℕ)

/-- The core and the flags that a handler reads. -/
structure World (σ : Type) where
  core : σ
  exclusiveBatchActive : Bool
  synchronized : Bool
  beenSynchronized : Bool
  stop : StopCheck → Bool

inductive ConnectionState where
  | beforHandshake
  | synchronizing
  | idle
  | normal
deriving DecidableEq, Repr

/-- `currency_connection_context`, with what the transport holds of the connection: whether it was
dropped, how often its address failed, the callbacks requested and not fired, all that was posted, and
the requests among it that the peer has not answered. -/
structure ConnectionContext where
  isIncome : Bool
  state : ConnectionState := .beforHandshake
  neededObjects : List Hash := []
  requestedObjects : Finset Hash := ∅
  remoteBlockchainHeight : UInt64 := 0
  lastResponseHeight : UInt64 := 0
  callbackRequestCount : UInt32 := 0
  remoteVersion : Blob := []
  dropped : Bool := false
  ipFails : ℕ := 0
  callbacks : ℕ := 0
  posted : List Notification := []
  unanswered : List Notification := []
deriving DecidableEq

/-- A connection in its surroundings. -/
structure Session (σ : Type) where
  world : World σ
  context : ConnectionContext

namespace Session

variable {σ α : Type}

def setState (s : Session σ) (state : ConnectionState) : Session σ :=
  { s with context := { s.context with state } }

def dropConnection (s : Session σ) : Session σ :=
  { s with context := { s.context with dropped := true } }

def addIpFail (s : Session σ) : Session σ :=
  { s with context := { s.context with ipFails := s.context.ipFails + 1 } }

/-- `post_notify` of a request: the peer owes an answer. -/
def postRequest (s : Session σ) (n : Notification) : Session σ :=
  { s with context := { s.context with
    posted := s.context.posted ++ [n]
    unanswered := s.context.unanswered ++ [n] } }

/-- `post_notify` of a response. -/
def postResponse (s : Session σ) (n : Notification) : Session σ :=
  { s with context := { s.context with posted := s.context.posted ++ [n] } }

def setCore (s : Session σ) (core : σ) : Session σ := { s with world := { s.world with core } }

def setExclusiveBatch (s : Session σ) (active : Bool) : Session σ :=
  { s with world := { s.world with exclusiveBatchActive := active } }

/-- `call_if_no_batch_exclusive_operation`, `none` when it does not call. -/
def callIfNoBatchExclusiveOperation (s : Session σ) (c : Session σ → α) : Option α :=
  if s.world.exclusiveBatchActive then none else some (c s)

/-- `check_stop_flag_and_exit`: the connection is dropped if the flag is found set. -/
def checkStopFlagAndExit (s : Session σ) (check : StopCheck) : Option (Session σ) :=
  if s.world.stop check then some s.dropConnection else none

variable (E : Env) (C : ProtocolCore σ)

def onCallback (s : Session σ) : Session σ :=
  if s.context.callbackRequestCount = 0 then s
  else
    let s := { s with context := { s.context with
      callbackRequestCount := s.context.callbackRequestCount - 1 } }
    if s.context.state = .synchronizing then
      match s.callIfNoBatchExclusiveOperation fun s => C.getShortChainHistory s.world.core with
      | some ids => s.postRequest (.requestChain ids)
      | none => s.setState .idle
    else s

/-- The part of `process_payload_sync_data` that runs when the core is not busy. -/
def processSyncData (hshd : CoreSyncData) (s : Session σ) : Bool × Session σ :=
  let core := s.world.core
  if C.haveBlock core hshd.topId then (true, s.setState .normal)
  else if hshd.lastCheckpointHeight ≠ 0 ∧
      C.getTopCheckpointHeight core < hshd.lastCheckpointHeight ∧
      C.getCurrentBlockchainHeight core < hshd.lastCheckpointHeight then (false, s)
  else (true, { s with context := { s.context with
    state := .synchronizing
    remoteBlockchainHeight := hshd.currentHeight
    callbackRequestCount := s.context.callbackRequestCount + 1
    callbacks := s.context.callbacks + 1 } })

def processPayloadSyncData (hshd : CoreSyncData) (isInital : Bool) (s : Session σ) :
    Bool × Session σ :=
  let s := { s with context := { s.context with
    remoteVersion := hshd.clientVersion
    remoteBlockchainHeight := hshd.currentHeight } }
  if s.context.state = .beforHandshake ∧ isInital = false then (true, s)
  else if s.context.state = .synchronizing then (true, s)
  else if s.world.beenSynchronized = false ∧ s.context.isIncome = false ∧ hshd.currentHeight = 1 ∧
      isInital = true then (true, s.dropConnection)
  else
    match s.callIfNoBatchExclusiveOperation (processSyncData C hshd) with
    | some r => r
    | none => (true, s.setState .idle)

/-- The loop of `request_missing_objects`: the ids it asks for, at most `room`, and those it leaves. -/
def takeNeeded (known : Hash → Bool) : ℕ → List Hash → List Hash × List Hash
  | _, [] => ([], [])
  | 0, l => ([], l)
  | room + 1, id :: l =>
      if known id then takeNeeded known (room + 1) l
      else
        let r := takeNeeded known room l
        (id :: r.1, r.2)

/-- `request_missing_objects`. When the final condition fails nothing is changed. -/
def requestMissingObjects (checkHavingBlocks : Bool) (s : Session σ) : Bool × Session σ :=
  let c := s.context
  if c.neededObjects ≠ [] then
    let r := takeNeeded (fun id => checkHavingBlocks && C.haveBlock s.world.core id)
      BLOCKS_SYNCHRONIZING_DEFAULT_COUNT c.neededObjects
    let s := { s with context := { c with
      neededObjects := r.2
      requestedObjects := c.requestedObjects ∪ r.1.toFinset } }
    (true, s.postRequest (.requestGetObjects ⟨[], r.1⟩))
  else if c.lastResponseHeight < c.remoteBlockchainHeight - 1 then
    match s.callIfNoBatchExclusiveOperation fun s => C.getShortChainHistory s.world.core with
    | some ids => (true, s.postRequest (.requestChain ids))
    | none => (true, s.setState .idle)
  else if c.lastResponseHeight = c.remoteBlockchainHeight - 1 ∧ c.neededObjects = [] ∧
      c.requestedObjects = ∅ then (true, s.setState .normal)
  else (false, s)

def addNeeded (s : Session σ) (ids : List Hash) : Session σ :=
  { s with context := { s.context with neededObjects := s.context.neededObjects ++ ids } }

/-- The loop of `handle_response_chain_entry` over the ids; `false` is a stop. -/
def collectNeeded : ℕ → List Hash → Session σ → Bool × Session σ
  | _, [], s => (true, s)
  | i, id :: l, s =>
      match s.checkStopFlagAndExit (.chainEntry i) with
      | some s => (false, s)
      | none =>
          if C.haveBlock s.world.core id then collectNeeded (i + 1) l s
          else collectNeeded (i + 1) l (s.addNeeded [id])

/-- The heights that the answer gives. -/
def withHeights (arg : NotifyResponseChainEntry) (s : Session σ) : Session σ :=
  { s with context := { s.context with
    remoteBlockchainHeight := arg.totalHeight
    lastResponseHeight := arg.startHeight + UInt64.ofNat arg.blockIds.length - 1 } }

/-- The end of `handle_response_chain_entry`. -/
def requestNeeded (ids : List Hash) (s : Session σ) : Session σ :=
  match collectNeeded C 0 ids s with
  | (false, s) => s
  | (true, s) => (requestMissingObjects C false s).2

/-- The part of `handle_response_chain_entry` that runs when the core is not busy. -/
def processChainEntry (arg : NotifyResponseChainEntry) (first : Hash) (s : Session σ) : Session σ :=
  if C.haveBlock s.world.core first then
    let s := s.withHeights arg
    if s.context.remoteBlockchainHeight < s.context.lastResponseHeight then
      -- nothing is returned here
      requestNeeded C arg.blockIds s.dropConnection
    else requestNeeded C arg.blockIds s
  else s.dropConnection.addIpFail

/-- `handle_response_chain_entry`. Nothing is done when the core is busy. -/
def handleResponseChainEntry (arg : NotifyResponseChainEntry) (s : Session σ) : Session σ :=
  match arg.blockIds with
  | [] => s.dropConnection.addIpFail
  | first :: _ =>
      match s.callIfNoBatchExclusiveOperation (processChainEntry C arg first) with
      | some s => s
      | none => s

/-- The first loop of `handle_response_get_objects`; `false` is a return. -/
def prevalidate : ℕ → List BlockCompleteEntry → Session σ → Bool × Session σ
  | _, [], s => (true, s)
  | i, entry :: l, s =>
      match s.checkStopFlagAndExit (.prevalidation i) with
      | some s => (false, s)
      | none =>
          match parseAndValidateBlockFromBlob entry.block with
          | none => (false, s.dropConnection.addIpFail)
          | some b =>
              -- the second block is looked at, whether another connection was faster
              if i = 1 ∧ C.haveBlock s.world.core (getBlockHash E b) then
                (false, { s with context := { s.context with
                  state := .idle, neededObjects := [], requestedObjects := ∅ } })
              else if getBlockHash E b ∉ s.context.requestedObjects then (false, s.dropConnection)
              else if b.txHashes.length ≠ entry.txs.length then (false, s.dropConnection)
              else prevalidate (i + 1) l { s with context := { s.context with
                requestedObjects := s.context.requestedObjects.erase (getBlockHash E b) } }

/-- The transactions of block `i` that comes with the blocks that were asked for. -/
def handleBlockTxs (i : ℕ) : ℕ → List Blob → Session σ → Bool × Session σ
  | _, [], s => (true, s)
  | j, txBlob :: l, s =>
      match s.checkStopFlagAndExit (.tx i j) with
      | some s => (false, s)
      | none =>
          let r := C.handleIncomingTx s.world.core txBlob true
          let s := s.setCore r.2
          if r.1.verifivationFailed then (false, s.dropConnection)
          else handleBlockTxs i (j + 1) l s

/-- The second loop. -/
def handleBlocks : ℕ → List BlockCompleteEntry → Session σ → Option (Bool × Session σ)
  | _, [], s => some (true, s)
  | i, entry :: l, s =>
      match s.checkStopFlagAndExit (.block i) with
      | some s => some (false, s)
      | none =>
          match handleBlockTxs C i 0 entry.txs s with
          | (false, s) => some (false, s)
          | (true, s) =>
              match C.handleIncomingBlock s.world.core entry.block with
              | none => none
              | some (bvc, core) =>
                  let s := s.setCore core
                  if bvc.verifivationFailed then some (false, s.dropConnection.addIpFail)
                  else if bvc.markedAsOrphaned then some (false, s.dropConnection.addIpFail)
                  else handleBlocks (i + 1) l s

/-- The part of `handle_response_get_objects` that runs when the core is not busy. -/
def processObjects (arg : NotifyResponseGetObjects) (s : Session σ) : Option (Session σ) :=
  match prevalidate E C 0 arg.blocks s with
  | (false, s) => some s
  | (true, s) =>
      if s.context.requestedObjects ≠ ∅ then some s.dropConnection
      else
        match handleBlocks C 0 arg.blocks (s.setExclusiveBatch true) with
        | none => none
        | some (false, s) => some (s.setExclusiveBatch false)
        | some (true, s) => some (requestMissingObjects C true (s.setExclusiveBatch false)).2

def withRemoteHeight (height : UInt64) (s : Session σ) : Session σ :=
  { s with context := { s.context with remoteBlockchainHeight := height } }

def handleResponseGetObjects (arg : NotifyResponseGetObjects) (s : Session σ) : Option (Session σ) :=
  if arg.currentBlockchainHeight < s.context.lastResponseHeight then some s.dropConnection
  else
    let s := s.withRemoteHeight arg.currentBlockchainHeight
    match s.callIfNoBatchExclusiveOperation (processObjects E C arg) with
    | some r => r
    | none => some (s.setState .idle)

/-- The transactions of a message; `false` when one of them fails, which drops the connection. -/
def handleTxs (keptByBlock : Bool) : List Blob → Session σ → Bool × Session σ
  | [], s => (true, s)
  | txBlob :: l, s =>
      let r := C.handleIncomingTx s.world.core txBlob keptByBlock
      let s := s.setCore r.2
      if r.1.verifivationFailed then (false, s.dropConnection) else handleTxs keptByBlock l s

/-- News is taken from a synchronized peer only. -/
def takesNews (s : Session σ) : Bool :=
  s.world.synchronized && decide (s.context.state = .normal) &&
    decide (1 < s.context.remoteBlockchainHeight)

def handleNotifyNewBlock (arg : NotifyNewBlock) (s : Session σ) : Option (Session σ) :=
  if s.takesNews then
    match handleTxs C true arg.b.txs s with
    | (false, s) => some s
    | (true, s) =>
        match C.handleIncomingBlock s.world.core arg.b.block with
        | none => none
        | some (bvc, core) =>
            let s := s.setCore core
            if bvc.verifivationFailed then some s.dropConnection
            else if bvc.addedToMainChain then some s
            else if bvc.markedAsOrphaned then
              let s := s.setState .synchronizing
              some (s.postRequest (.requestChain (C.getShortChainHistory s.world.core)))
            else some s
  else some s

def handleNotifyNewTransactions (txs : List Blob) (s : Session σ) : Session σ :=
  if s.takesNews then (handleTxs C false txs s).2 else s

/-- The answer to a chain request of a node that is not to be asked. -/
def emptyChainEntry : NotifyResponseChainEntry := ⟨0, 1, [getBlockHash E generateGenesisBlock]⟩

def handleRequestChain (blockIds : List Hash) (s : Session σ) : Session σ :=
  if s.world.beenSynchronized then
    match s.callIfNoBatchExclusiveOperation fun s =>
        C.findBlockchainSupplement s.world.core blockIds with
    | some (some r) => s.postResponse (.responseChainEntry r)
    | some none => s
    | none => s.postResponse (.responseChainEntry (emptyChainEntry E))
  else s.postResponse (.responseChainEntry (emptyChainEntry E))

/-- `handle_request_get_objects`. Neither drop ends it. -/
def handleRequestGetObjects (arg : NotifyRequestGetObjects) (s : Session σ) : Session σ :=
  let s := if CURRENCY_PROTOCOL_MAX_BLOCKS_REQUEST_COUNT < arg.blocks.length ∨
      CURRENCY_PROTOCOL_MAX_TXS_REQUEST_COUNT < arg.txs.length then s.dropConnection else s
  if s.world.beenSynchronized then
    let r := C.handleGetObjects s.world.core arg
    let s := if r.1 then s else s.dropConnection
    s.postResponse (.responseGetObjects r.2)
  else s

/-- What reaches a connection. `dropIfRefused` says whether the caller of `process_payload_sync_data`
looks at its answer: both sides of a handshake do and who is asked to sync, who asked does not. -/
inductive Delivery where
  | callback
  | syncData (hshd : CoreSyncData) (isInital dropIfRefused : Bool)
  | newBlock (arg : NotifyNewBlock)
  | newTransactions (txs : List Blob)
  | requestChain (blockIds : List Hash)
  | requestGetObjects (arg : NotifyRequestGetObjects)
  | responseChainEntry (arg : NotifyResponseChainEntry)
  | responseGetObjects (arg : NotifyResponseGetObjects)

/-- The transport takes note of what it hands over: a response answers the oldest request of its kind,
a callback that is fired is no longer outstanding. -/
def receive (s : Session σ) : Delivery → Session σ
  | .callback => { s with context := { s.context with callbacks := s.context.callbacks - 1 } }
  | .responseChainEntry _ => { s with context := { s.context with
      unanswered := s.context.unanswered.eraseP Notification.isRequestChain } }
  | .responseGetObjects _ => { s with context := { s.context with
      unanswered := s.context.unanswered.eraseP Notification.isRequestGetObjects } }
  | _ => s

/-- The handler that is called. -/
def handle (s : Session σ) : Delivery → Option (Session σ)
  | .callback => some (onCallback C s)
  | .syncData hshd isInital dropIfRefused =>
      let r := processPayloadSyncData C hshd isInital s
      some (if !r.1 && dropIfRefused then r.2.dropConnection else r.2)
  | .newBlock arg => handleNotifyNewBlock C arg s
  | .newTransactions txs => some (handleNotifyNewTransactions C txs s)
  | .requestChain blockIds => some (handleRequestChain E C blockIds s)
  | .requestGetObjects arg => some (handleRequestGetObjects C arg s)
  | .responseChainEntry arg => some (handleResponseChainEntry C arg s)
  | .responseGetObjects arg => handleResponseGetObjects E C arg s

/-- A delivery, or anything that happens elsewhere. -/
inductive Event (σ : Type) where
  | deliver (d : Delivery)
  | elsewhere (w : World σ)

/-- One step, `none` when the handler does not return. Nothing reaches a connection that was dropped,
and a callback is fired only if one was requested. -/
def step (s : Session σ) : Event σ → Option (Session σ)
  | .elsewhere w => some { s with world := w }
  | .deliver d =>
      if s.context.dropped ∨ (d matches .callback) ∧ s.context.callbacks = 0 then some s
      else handle E C (s.receive d) d

/-- The states that are reached, in order. -/
def states : Session σ → List (Event σ) → List (Session σ)
  | _, [] => []
  | s, e :: l =>
      match step E C s e with
      | none => []
      | some s' => s' :: states s' l

end Session

end Boolberry
