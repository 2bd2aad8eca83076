import Boolberry.Lib.FiniteMap
import Boolberry.Lib.XorPatch
import Boolberry.Lib.Reader
import Boolberry.Lib.Simulation
import Boolberry.Basic
import Boolberry.Serialization
import Boolberry.FormatUtils
import Boolberry.Difficulty
import Boolberry.Reward
import Boolberry.Checkpoints
import Boolberry.Scratchpad
import Boolberry.Aliases
import Boolberry.TxIndex
import Boolberry.TxPool
import Boolberry.BlockTransactions
import Boolberry.TxLedger
import Boolberry.TxRefinement
import Boolberry.BlockRefinement
import Boolberry.BlockchainStorage
import Boolberry.ChainRefinement
import Boolberry.PushPop
import Boolberry.AlternativeChains
import Boolberry.Core
import Boolberry.NodeInvariant
import Boolberry.MainChain
import Boolberry.OutputIndex
import Boolberry.Supply
import Boolberry.PopRestores
import Boolberry.Branches
import Boolberry.BranchTimestamps
import Boolberry.Switching
import Boolberry.BranchScratchpad
import Boolberry.SpentFlags
import Boolberry.SpentOutputs
import Boolberry.Lines
import Boolberry.Rollback
import Boolberry.Reorganisation
import Boolberry.Outcomes
import Boolberry.PoolRuns
import Boolberry.CanonicalBlobs
import Boolberry.DbAbort
import Boolberry.PoolArchive
import Boolberry.Effects
import Boolberry.Sides
import Boolberry.CheckpointZone
import Boolberry.RefusedBlocks
import Boolberry.Verdicts
import Boolberry.Finality
import Boolberry.ChainHistory
import Boolberry.LmdbTransactions
import Boolberry.DbRefinement
import Boolberry.ScratchpadAborts
import Boolberry.WalletRetry
import Boolberry.Reservations
import Boolberry.WalletArchive
import Boolberry.Synchronizing
import Boolberry.HexStrings
import Boolberry.AliasStores
import Boolberry.PeerList
import Boolberry.SimpleMiner
import Boolberry.MiningRpc
import Boolberry.SwitchCleanup
import Boolberry.Placement
import Boolberry.HonestPeer
import Boolberry.PrunedSignatures
import Boolberry.ReadyTransactions
import Boolberry.PoolMemory
import Boolberry.ReadyRuns
import Boolberry.IntUtil
import Boolberry.ProofOfWork
import Boolberry.Emission
import Boolberry.Retarget
import Boolberry.AmountSplitting
import Boolberry.RingSizes
import Boolberry.BlockTemplate
import Boolberry.RandomOuts
import Boolberry.RingMembers
import Boolberry.Lib.Blocks
import Boolberry.WildKeccak
import Boolberry.KeccakSponge
import Boolberry.LonghashOpt
import Boolberry.BestFit
import Boolberry.CancelledTransfers
import Boolberry.ExtraReader
import Boolberry.ExtraBounds
import Boolberry.ExtraEntries
import Boolberry.UserData
import Boolberry.TransferHistory
import Boolberry.PoolTransfers
import Boolberry.MinerPauses
import Boolberry.BlobSizes
import Boolberry.SweepBoundary
import Boolberry.Base58
import Boolberry.Addresses
import Boolberry.TreeHash
import Boolberry.MnemonicEncoding
import Boolberry.MoneyTexts
import Boolberry.Lib.PartialSort
import Boolberry.AltListing
import Boolberry.Hashrate
import Boolberry.AliasQueries
import Boolberry.BlocksTsMedian
import Boolberry.GroupOrder
import Boolberry.Lib.OneOfProof
import Boolberry.Crypto
import Boolberry.RingSignatures
import Boolberry.Chacha8
import Boolberry.SwapInfo
import Boolberry.TxConstruction
import Boolberry.Lib.LimbProgram
import Boolberry.ScalarLimbs
import Boolberry.Lib.SignedDigits
import Boolberry.ScalarMult
import Boolberry.PortableStorage
import Boolberry.PortableRoundTrip
import Boolberry.Lib.Framing
import Boolberry.Levin
import Boolberry.LevinRuns
import Boolberry.LevinLink
