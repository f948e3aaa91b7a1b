import Dacrs.Lib.Store
import Dacrs.Lib.Ledger
import Dacrs.Lib.Outcome
import Dacrs.Lib.Undo
import Dacrs.Lib.Codec
import Dacrs.Lib.Binary
import Dacrs.Lib.Overlay
import Dacrs.Types
import Dacrs.Transaction
import Dacrs.Block
import Dacrs.BlockIndex
import Dacrs.Env
import Dacrs.Account
import Dacrs.AccountView
import Dacrs.ScriptView
import Dacrs.AppAccount
import Dacrs.Base58
import Dacrs.Burn
import Dacrs.Vm
import Dacrs.Execute
import Dacrs.ExecuteSpec
import Dacrs.ContractSpec
import Dacrs.ContractData
import Dacrs.Sample
import Dacrs.TxCacheStack
import Dacrs.TransactionUndo
import Dacrs.Conservation
import Dacrs.RegisterAccountUndo
import Dacrs.RegisterAppUndo
import Dacrs.TxCache
import Dacrs.Check
import Dacrs.Pos
import Dacrs.UndoFile
import Dacrs.Connect
import Dacrs.ConnectSpec
import Dacrs.AccountCache
import Dacrs.AccountStackSpec
import Dacrs.AccountFlush
import Dacrs.AccountOverlay
import Dacrs.ContractAuthority
import Dacrs.AppFunds
import Dacrs.AppRecord
import Dacrs.AppUsers
import Dacrs.Solvency
import Dacrs.ScriptCache
import Dacrs.ScriptJournal
import Dacrs.TipAtomic
import Dacrs.Lib.Window
import Dacrs.ExecuteFrame
import Dacrs.CacheWindow
import Dacrs.ActiveChain
import Dacrs.SampleChain
import Dacrs.Replay
import Dacrs.Lib.Index
import Dacrs.Identity
import Dacrs.Registrations
import Dacrs.Reward
import Dacrs.Mining
import Dacrs.Assembly
import Dacrs.Guarded
import Dacrs.Faults
import Dacrs.CheckedTx
import Dacrs.AppOutput
import Dacrs.CallSafe
import Dacrs.Lib.Calls
import Dacrs.CoinDay
import Dacrs.Withdrawal
import Dacrs.CoinAge
import Dacrs.Lib.Handles
import Dacrs.Downloads
import Dacrs.Orphans
import Dacrs.FundLaws
import Dacrs.AssetTransfer
import Dacrs.Loading
import Dacrs.Lib.Cursor
import Dacrs.ScriptList
import Dacrs.DataList
import Dacrs.BlockUndo
import Dacrs.Parity
import Dacrs.AdjustHash
import Dacrs.Decompress
import Dacrs.RegIdText
import Dacrs.TransactionWire
import Dacrs.SignatureBinding
import Dacrs.FuelRate
import Dacrs.NextWork
import Dacrs.LiveCounts
import Dacrs.AddressIndex
import Dacrs.AcceptBlock
import Dacrs.Lib.Ancestry
import Dacrs.Candidates
import Dacrs.CandidateRuns
import Dacrs.Base58RoundTrip
import Dacrs.VarInt
import Dacrs.MerkleBranch
import Dacrs.PartialMerkle
import Dacrs.PartialMerkleRoundTrip
import Dacrs.ChainIndex
import Dacrs.Locator
import Dacrs.ParaList
import Dacrs.CallReturn
import Dacrs.Lib.OrderedSet
import Dacrs.Lib.Admission
import Dacrs.StakeOrder
import Dacrs.MemPool
import Dacrs.Activation
import Dacrs.Lib.Extents
import Dacrs.Transport
import Dacrs.BlockFileRuns
import Dacrs.TargetLimbs
