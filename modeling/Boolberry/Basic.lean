import Mathlib.Data.BitVec
import Mathlib.Data.Finset.Basic

/-!
# Transactions, blocks and constants

The data of `currency_basic.h`, `blockchain_storage_basic.h` and the part of
`currency_config.h` that the chain rules read. A hash, key or key image is its
32 bytes read as a little-endian integer, so `xor_pod` is `^^^` and the first
eight bytes are the residue modulo `2 ^ 64`.
-/

namespace Boolberry

abbrev Blob := List UInt8
abbrev Hash := BitVec 256
abbrev PublicKey := BitVec 256
abbrev SecretKey := BitVec 256
abbrev KeyImage := BitVec 256
abbrev Signature := BitVec 512
/-- `wide_difficulty_type`, an unsigned 128-bit integer. -/
abbrev WideDifficulty := BitVec 128

def nullHash : Hash := 0
def nullPkey : PublicKey := 0
def nullSkey : SecretKey := 0
def nullSig : Signature := 0

def CURRENCY_MAX_BLOCK_NUMBER : ℕ := 500000000
def CURRENCY_MINED_MONEY_UNLOCK_WINDOW : ℕ := 10
def CURRENCY_BLOCK_FUTURE_TIME_LIMIT : ℕ := 60 * 60 * 2
def BLOCKCHAIN_TIMESTAMP_CHECK_WINDOW : ℕ := 60
def TOTAL_MONEY_SUPPLY : UInt64 := 18446744073709551615
def DONATIONS_SUPPLY : UInt64 := TOTAL_MONEY_SUPPLY / 100
def EMISSION_SUPPLY : UInt64 := TOTAL_MONEY_SUPPLY - DONATIONS_SUPPLY
def EMISSION_CURVE_CHARACTER : UInt64 := 20
def CURRENCY_TO_KEY_OUT_FORCED_NO_MIX : UInt8 := 1
def CURRENCY_REWARD_BLOCKS_WINDOW : ℕ := 400
def CURRENCY_BLOCK_GRANTED_FULL_REWARD_ZONE : ℕ := 30000
def CURRENCY_COINBASE_BLOB_RESERVED_SIZE : ℕ := 600
def CURRENCY_MAX_TRANSACTION_BLOB_SIZE : ℕ :=
  CURRENCY_BLOCK_GRANTED_FULL_REWARD_ZONE - CURRENCY_COINBASE_BLOB_RESERVED_SIZE * 2
def DEFAULT_DUST_THRESHOLD : UInt64 := 1000000
def TX_POOL_MINIMUM_FEE : UInt64 := 10000000
def DIFFICULTY_TARGET : ℕ := 120
def DIFFICULTY_WINDOW : ℕ := 720
def DIFFICULTY_LAG : ℕ := 15
def DIFFICULTY_CUT : ℕ := 60
def DIFFICULTY_BLOCKS_COUNT : ℕ := DIFFICULTY_WINDOW + DIFFICULTY_LAG
def CURRENCY_LOCKED_TX_ALLOWED_DELTA_BLOCKS : ℕ := 1
def CURRENCY_LOCKED_TX_ALLOWED_DELTA_SECONDS : ℕ :=
  DIFFICULTY_TARGET * CURRENCY_LOCKED_TX_ALLOWED_DELTA_BLOCKS
def CURRENCY_ALT_BLOCK_LIVETIME_COUNT : ℕ := 720 * 7
def CURRENCY_MEMPOOL_TX_LIVETIME : ℕ := 86400
def CURRENCY_MEMPOOL_TX_FROM_ALT_BLOCK_LIVETIME : ℕ :=
  CURRENCY_ALT_BLOCK_LIVETIME_COUNT * DIFFICULTY_TARGET
def CURRENCY_DONATIONS_INTERVAL : ℕ := 720
def BLOCK_FLAGS_SUPPRESS_DONATION : UInt8 := 1

structure TxoutToScript where
  keys : List PublicKey
  script : Blob
deriving DecidableEq, Repr

structure TxoutToKey where
  key : PublicKey
  mixAttr : UInt8
deriving DecidableEq, Repr

/-- `txout_target_v`. -/
inductive TxoutTarget where
  | toScript (out : TxoutToScript)
  | toScripthash (hash : Hash)
  | toKey (out : TxoutToKey)
deriving DecidableEq, Repr

structure TxOut where
  amount : UInt64
  target : TxoutTarget
deriving DecidableEq, Repr

structure TxinToKey where
  amount : UInt64
  keyOffsets : List UInt64
  kImage : KeyImage
deriving DecidableEq, Repr

/-- `txin_v`. -/
inductive Txin where
  | gen (height : UInt64)
  | toScript (prev : Hash) (prevout : UInt64) (sigset : Blob)
  | toScripthash (prev : Hash) (prevout : UInt64) (script : TxoutToScript) (sigset : Blob)
  | toKey (inp : TxinToKey)
deriving DecidableEq, Repr

structure TransactionPrefix where
  version : UInt64
  unlockTime : UInt64
  vin : List Txin
  vout : List TxOut
  extra : Blob
deriving DecidableEq, Repr

structure Transaction extends TransactionPrefix where
  signatures : List (List Signature)
deriving DecidableEq, Repr

structure BlockHeader where
  majorVersion : UInt8
  minorVersion : UInt8
  timestamp : UInt64
  prevId : Hash
  nonce : UInt64
  flags : UInt8
deriving DecidableEq, Repr

structure Block extends BlockHeader where
  minerTx : Transaction
  txHashes : List Hash
deriving DecidableEq, Repr

structure BlockExtendedInfo where
  bl : Block
  height : ℕ
  blockCumulativeSize : ℕ
  cumulativeDifficulty : WideDifficulty
  alreadyGeneratedCoins : UInt64
  alreadyDonatedCoins : UInt64
  scratchOffset : ℕ
deriving DecidableEq, Repr

structure TransactionChainEntry where
  tx : Transaction
  keeperBlockHeight : ℕ
  globalOutputIndexes : List ℕ
  spentFlags : List Bool
deriving DecidableEq, Repr

/-- `account_public_address_base`. -/
structure AccountPublicAddress where
  spendPublicKey : PublicKey
  viewPublicKey : PublicKey
deriving DecidableEq, Repr

structure AccountKeys where
  accountAddress : AccountPublicAddress
  viewSecretKey : SecretKey
deriving DecidableEq, Repr

structure AliasInfoBase where
  address : AccountPublicAddress
  viewKey : SecretKey
  sign : Signature
  textComment : Blob
deriving DecidableEq, Repr

structure AliasInfo extends AliasInfoBase where
  aliasName : Blob
deriving DecidableEq, Repr

structure TxExtraInfo where
  txPubKey : PublicKey
  aliasInfo : AliasInfo
  userDataBlob : Blob
deriving DecidableEq, Repr

structure TxVerificationContext where
  shouldBeRelayed : Bool := false
  verifivationFailed : Bool := false
  verifivationImpossible : Bool := false
  addedToPool : Bool := false
deriving DecidableEq, Repr

structure BlockVerificationContext where
  addedToMainChain : Bool := false
  verifivationFailed : Bool := false
  markedAsOrphaned : Bool := false
  alreadyExists : Bool := false
deriving DecidableEq, Repr

/-- What the node calls and this development does not look into: the hash
functions, the signature and key arithmetic of `crypto/`, and the two accounts
the coinbase donations go to. `pastEnd` is the byte an out-of-range read of a
transaction's `extra` returns; it is a fixed function of the blob read, so that
two parses of one transaction agree. -/
structure Env where
  cnFastHash : Blob → Hash
  getBlobLonghash : Blob → ℕ → (UInt64 → Hash) → Hash
  checkKey : PublicKey → Bool
  validateKeyImage : KeyImage → Bool
  checkRingSignature : Hash → KeyImage → List PublicKey → List Signature → Bool
  checkSignature : Hash → PublicKey → Signature → Bool
  isOutToAcc : AccountKeys → TxoutToKey → PublicKey → ℕ → Bool
  donationsAccount : AccountKeys
  royaltyAccount : AccountKeys
  pastEnd : Blob → ℕ → UInt8

end Boolberry
