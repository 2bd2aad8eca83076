import Boolberry.BlockchainStorage

/-!
# Alternative chains

`handle_alternative_block`, `switch_to_alternative_blockchain`,
`rollback_blockchain_switching` and `add_new_block`. The list of map iterators
that the source calls `alt_chain` is a list of ids with their entries, the block
next to the main chain first. A switch calls `handle_alternative_block` again for
the blocks it takes off the main chain; the depth of these calls is bounded by
fuel, and `none` is a call that does not return within it.
-/

namespace Boolberry
open KeyValue XorPatch

abbrev AltChain := List (Hash × BlockExtendedInfo)

/-- The loop that follows `prev_id` through the alternative blocks. -/
def altChainGo (alts : Map Hash BlockExtendedInfo) : ℕ → Hash → AltChain → Option AltChain
  | 0, _, _ => none
  | k + 1, id, altChain =>
      match alts.get id with
      | none => some altChain
      | some bei => altChainGo alts k bei.bl.prevId ((id, bei) :: altChain)

/-- The branch that ends in `prevId`; `none` when the entries form a cycle and the loop never ends. -/
def altChainOf (alts : Map Hash BlockExtendedInfo) (prevId : Hash) : Option AltChain :=
  altChainGo alts (alts.keys.card + 1) prevId []

/-- The timestamp of the main-chain block at a height. -/
def timestampAt (blocks : List BlockExtendedInfo) (h : ℕ) : UInt64 :=
  match blocks[h]? with
  | none => 0
  | some bei => bei.bl.timestamp

/-- The `do ... while` loop of `complete_timestamps_vector`. -/
def completeTimestampsGo (blocks : List BlockExtendedInfo) (stopOffset : ℕ) :
    ℕ → List UInt64 → List UInt64
  | 0, timestamps => timestamps ++ [timestampAt blocks 0]
  | h + 1, timestamps =>
      let timestamps := timestamps ++ [timestampAt blocks (h + 1)]
      if h = stopOffset then timestamps else completeTimestampsGo blocks stopOffset h timestamps

/-- `complete_timestamps_vector`; its return value is not read. -/
def completeTimestampsVector (blocks : List BlockExtendedInfo) (startTopHeight : ℕ)
    (timestamps : List UInt64) : List UInt64 :=
  if BLOCKCHAIN_TIMESTAMP_CHECK_WINDOW ≤ timestamps.length then timestamps
  else if blocks.length ≤ startTopHeight then timestamps
  else
    let needElements := BLOCKCHAIN_TIMESTAMP_CHECK_WINDOW - timestamps.length
    let stopOffset := if needElements < startTopHeight then startTopHeight - needElements else 0
    completeTimestampsGo blocks stopOffset startTopHeight timestamps

/-- The timestamps `handle_alternative_block` checks a block on `altChain` against. -/
def altTimestamps (blocks : List BlockExtendedInfo) (startTopHeight : ℕ)
    (branch : List BlockExtendedInfo) : List UInt64 :=
  completeTimestampsVector blocks startTopHeight (branch.reverse.map fun bei => bei.bl.timestamp)

/-- The blocks `get_next_difficulty_for_alternative_chain` reads for a block at height `height` on
`branch`. -/
def altDifficultyWindow (blocks branch : List BlockExtendedInfo) (height : ℕ) :
    List BlockExtendedInfo :=
  if branch.length < DIFFICULTY_BLOCKS_COUNT then
    let mainChainStopOffset := match branch.head? with
      | none => height
      | some bei => bei.height
    let mainChainCount := min (DIFFICULTY_BLOCKS_COUNT - min DIFFICULTY_BLOCKS_COUNT branch.length)
      mainChainStopOffset
    let mainChainStartOffset := mainChainStopOffset - mainChainCount
    let mainChainStartOffset := if mainChainStartOffset = 0 then 1 else mainChainStartOffset
    (blocks.take mainChainStopOffset).drop mainChainStartOffset ++ branch
  else branch.drop (branch.length - DIFFICULTY_BLOCKS_COUNT)

def getNextDifficultyForAlternativeChain (blocks branch : List BlockExtendedInfo) (height : ℕ) :
    WideDifficulty :=
  let window := altDifficultyWindow blocks branch height
  if DIFFICULTY_BLOCKS_COUNT < window.length then 0
  else nextDifficulty (window.map fun bei => bei.bl.timestamp)
    (window.map fun bei => bei.cumulativeDifficulty)

/-- The entries the branch appends and the patch it makes. -/
def altScratchpad (E : Env) (branch : List BlockExtendedInfo) : List Hash × Map ℕ Hash :=
  branch.foldl (fun r bei => pushBlockScratchpadDataPatch E bei.scratchOffset bei.bl r.1 r.2) ([], ∅)

/-- The patches of the main-chain blocks above the connection, `none` when one is unreadable. -/
def mainLinePatches (E : Env) : List BlockExtendedInfo → Map ℕ Hash → Option (Map ℕ Hash)
  | [], patches => some patches
  | bei :: l, patches =>
      let addendum := getBlockScratchpadAddendum E bei.bl
      if addendum.1 then
        mainLinePatches E l (getScratchpadPatch bei.scratchOffset addendum.2 patches)
      else none

/-- The lookup `handle_alternative_block` passes to the proof-of-work hash; `base` is the scratchpad
offset of the main-chain block at the connection height. -/
def altScratchpadAccessor (scratchpad : List Hash) (base scratchOffset : ℕ)
    (altScratchppad : List Hash) (altScratchppadPatch : Map ℕ Hash) (index : UInt64) : Hash :=
  let offset := index.toNat % scratchOffset
  let res := if base ≤ offset then altScratchppad.getD (offset - base) nullHash
    else scratchpad.getD offset nullHash
  match altScratchppadPatch.get offset with
  | none => res
  | some h => res ^^^ h

/-- Where a new alternative block is attached: the branch below it, the height of the block it
follows, that block's cumulative difficulty, and the height of the first main-chain block that is
not below it. -/
structure Attachment where
  altChain : AltChain
  prevHeight : ℕ
  prevDifficulty : WideDifficulty
  connectionHeight : ℕ

/-- The branch as block records. -/
def Attachment.branch (a : Attachment) : List BlockExtendedInfo := a.altChain.map Prod.snd

/-- The first part of `handle_alternative_block` behind the search for the previous block: the
branch and its connection to the main chain; `none` ends the call with `false`. -/
def attach (E : Env) (n : Node) (prevId : Hash) (altChain : AltChain) : Option Attachment :=
  match altChain.head?, altChain.getLast? with
  | some front, some back =>
      if n.blocks.length ≤ front.2.height then none
      else
        match n.blocks[front.2.height - 1]? with
        | none => none
        | some bei =>
            if getBlockHash E bei.bl = front.2.bl.prevId then
              some ⟨altChain, back.2.height, back.2.cumulativeDifficulty, front.2.height⟩
            else none
  | _, _ =>
      match n.blocksIndex.get prevId with
      | none => none
      | some h =>
          match n.blocks[h]? with
          | none => none
          | some bei => some ⟨[], h, bei.cumulativeDifficulty, h + 1⟩

/-- The proof-of-work part of `handle_alternative_block`: the record of the block without its
cumulative difficulty, the difficulty and the proof of work; `none` ends the call with `false`. -/
def altProofOfWork (E : Env) (n : Node) (b : Block) (a : Attachment) :
    Option (BlockExtendedInfo × WideDifficulty × Hash) :=
  let height := a.prevHeight + 1
  if a.connectionHeight = 0 then none
  else
    match n.blocks[a.connectionHeight]? with
    | none => none
    | some connection =>
        let alt := altScratchpad E a.branch
        let scratchOffset := connection.scratchOffset + alt.1.length
        if scratchOffset = 0 then none
        else
          match mainLinePatches E (n.blocks.drop a.connectionHeight) ∅ with
          | none => none
          | some patches =>
              let patch := mergeBelow connection.scratchOffset alt.2 patches
              let currentDiff := getNextDifficultyForAlternativeChain n.blocks a.branch height
              if currentDiff = 0 then none
              else
                let accessor := altScratchpadAccessor n.scratchpad.getScratchpad
                  connection.scratchOffset scratchOffset alt.1 patch
                some (⟨b, height, 0, 0, 0, 0, scratchOffset⟩, currentDiff,
                  getBlockLonghash E b height accessor)

/-- `handle_alternative_block` up to the comparison of the difficulties: the call is over, or the
block is now the last one of the branch. -/
def addAlternativeBlock (E : Env) (bvc : BlockVerificationContext) (n : Node) (b : Block)
    (a : Attachment) : Except (Bool × BlockVerificationContext × Node) (AltChain × Node) :=
  let id := getBlockHash E b
  let failed := { bvc with verifivationFailed := true }
  let r := checkBlockTimestamp E n (altTimestamps n.blocks (a.connectionHeight - 1) a.branch) b
  let n := r.2
  if !r.1 then .error (false, failed, n)
  else
    match altProofOfWork E n b a with
    | none => .error (false, bvc, n)
    | some (bei, currentDiff, proofOfWork) =>
        if !checkHash proofOfWork currentDiff then .error (false, failed, n)
        else
          let zone := n.checkpoints.isInCheckpointZone bei.height
          let n := { n with isInCheckpointZone := zone }
          if zone && !n.checkpoints.checkBlock bei.height id then .error (false, failed, n)
          else if !prevalidateMinerTransaction b bei.height then .error (false, failed, n)
          else
            let bei := { bei with cumulativeDifficulty := a.prevDifficulty + currentDiff }
            match n.alternativeChains.get id with
            | some _ => .error (false, bvc, n)
            | none => .ok (a.altChain ++ [(id, bei)],
                { n with alternativeChains := n.alternativeChains.set id bei })

/-- Pop the blocks from `top` down to `height`; the blocks popped are put in front of `popped`. -/
def popBlocks (E : Env) (now : ℕ) (height : ℕ) :
    ℕ → Node → List Block → Except Node (List Block × Node)
  | 0, n, popped => .ok (popped, n)
  | k + 1, n, popped =>
      match n.blocks[height + k]? with
      | none => .error n
      | some bei =>
          let r := popBlockFromBlockchain E now n
          if r.1 then popBlocks E now height k r.2 (bei.bl :: popped) else .error r.2

/-- The second loop of `rollback_blockchain_switching`. -/
def returnOriginalChain (E : Env) (now : ℕ) : List Block → Node → Bool × Node
  | [], n => (true, n)
  | bl :: l, n =>
      let r := handleBlockToMainChain E now {} n bl
      if r.1 && r.2.1.addedToMainChain then returnOriginalChain E now l r.2.2 else (false, r.2.2)

def rollbackBlockchainSwitching (E : Env) (now : ℕ) (n : Node) (originalChain : List Block)
    (rollbackHeight : ℕ) : Bool × Node :=
  match popBlocks E now rollbackHeight (n.blocks.length - rollbackHeight) n [] with
  | .error n => (false, n)
  | .ok (_, n) => returnOriginalChain E now originalChain n

/-- One round of the loop over the blocks behind a failed one: `first` is `*alt_ch_iter`, `e` is
`*alt_ch_to_orph_iter`. -/
def orphanStep (first : Hash × BlockExtendedInfo) (n : Node) (e : Hash × BlockExtendedInfo) : Node :=
  let n := addBlockAsInvalid n first.2 first.1
  { n with alternativeChains := n.alternativeChains.erase e.1 }

/-- The blocks behind a failed one leave the alternative chains. Only the first of them is marked as
invalid: the loop reads `*alt_ch_iter` where it means `*alt_ch_to_orph_iter`, an entry that is erased
after the first round, taken here as still readable. -/
def orphanRest (n : Node) (rest : AltChain) : Node :=
  match rest.head? with
  | none => n
  | some first => rest.foldl (orphanStep first) n

/-- The loop that connects the new chain. -/
def connectAltChain (E : Env) (now : ℕ) (disconnectedChain : List Block) (splitHeight : ℕ) :
    AltChain → Node → Except Node Node
  | [], n => .ok n
  | chEnt :: rest, n =>
      let r := handleBlockToMainChain E now {} n chEnt.2.bl
      if r.1 && r.2.1.addedToMainChain then
        connectAltChain E now disconnectedChain splitHeight rest r.2.2
      else
        let n := (rollbackBlockchainSwitching E now r.2.2 disconnectedChain splitHeight).2
        let n := addBlockAsInvalid n chEnt.2 (getBlockHash E chEnt.2.bl)
        let n := { n with alternativeChains := n.alternativeChains.erase chEnt.1 }
        .error (orphanRest n rest)

/-- The loop that pushes the old chain as an alternative one, with `handle` for
`handle_alternative_block`. -/
def pushOldChain (handle : Node → Block → Option (Bool × Node)) :
    List Block → Node → Option (Bool × Node)
  | [], n => some (true, n)
  | bl :: l, n =>
      match handle n bl with
      | none => none
      | some (true, n) => pushOldChain handle l n
      | some (false, n) => some (false, n)

def eraseAltChain (n : Node) (altChain : AltChain) : Node :=
  { n with alternativeChains := altChain.foldl (fun m e => m.erase e.1) n.alternativeChains }

def switchToAlternativeBlockchain (E : Env) (now : ℕ)
    (handle : Node → Block → Option (Bool × Node)) (n : Node) (altChain : AltChain) :
    Option (Bool × Node) :=
  match altChain.head? with
  | none => some (false, n)
  | some front =>
      let splitHeight := front.2.height
      if n.blocks.length ≤ splitHeight then some (false, n)
      else
        match popBlocks E now splitHeight (n.blocks.length - splitHeight) n [] with
        | .error n => some (false, n)
        | .ok (disconnectedChain, n) =>
            match connectAltChain E now disconnectedChain splitHeight altChain n with
            | .error n => some (false, n)
            | .ok n =>
                match pushOldChain handle disconnectedChain n with
                | none => none
                | some (false, n) =>
                    some (false, (rollbackBlockchainSwitching E now n disconnectedChain splitHeight).2)
                | some (true, n) => some (true, eraseAltChain n altChain)

/-- The cumulative difficulty of the top block. -/
def topDifficulty (blocks : List BlockExtendedInfo) : WideDifficulty :=
  match blocks.getLast? with
  | none => 0
  | some bei => bei.cumulativeDifficulty

def handleAlternativeBlock (E : Env) (now : ℕ) :
    ℕ → BlockVerificationContext → Node → Block → Option (Bool × BlockVerificationContext × Node)
  | 0, _, _, _ => none
  | fuel + 1, bvc, n, b =>
      if n.checkpoints.isHeightPassedZone (getBlockHeight b) (n.blocks.length - 1) then
        some (false, { bvc with verifivationFailed := true }, n)
      else if (n.alternativeChains.get b.prevId).isNone && (n.blocksIndex.get b.prevId).isNone then
        some (true, { bvc with markedAsOrphaned := true }, n)
      else
        match altChainOf n.alternativeChains b.prevId with
        | none => none
        | some altChain =>
            match attach E n b.prevId altChain with
            | none => some (false, bvc, n)
            | some a =>
                match addAlternativeBlock E bvc n b a with
                | .error r => some r
                | .ok (altChain, n) =>
                    let difficulty := topDifficulty (altChain.map Prod.snd)
                    if topDifficulty n.blocks < difficulty then
                      let handle (n : Node) (b : Block) : Option (Bool × Node) :=
                        (handleAlternativeBlock E now fuel {} n b).map fun r => (r.1, r.2.2)
                      match switchToAlternativeBlockchain E now handle n altChain with
                      | none => none
                      | some (true, n) => some (true, { bvc with addedToMainChain := true }, n)
                      | some (false, n) => some (false, { bvc with verifivationFailed := true }, n)
                    else some (true, bvc, n)

def haveBlock (n : Node) (id : Hash) : Bool :=
  (n.blocksIndex.get id).isSome || (n.alternativeChains.get id).isSome ||
    (n.invalidBlocks.get id).isSome

def addNewBlock (E : Env) (now fuel : ℕ) (bvc : BlockVerificationContext) (n : Node) (bl : Block) :
    Option (Bool × BlockVerificationContext × Node) :=
  if haveBlock n (getBlockHash E bl) then some (false, { bvc with alreadyExists := true }, n)
  else if bl.prevId ≠ getTopBlockId E n.blocks then
    handleAlternativeBlock E now fuel { bvc with addedToMainChain := false } n bl
  else some (handleBlockToMainChain E now bvc n bl)

end Boolberry
