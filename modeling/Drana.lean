import Drana.Lib.Except
import Drana.Lib.Word
import Drana.Lib.GoMap
import Drana.Lib.Bytes
import Drana.Types
import Drana.State
import Drana.Validation
import Drana.Executor
import Drana.Inversion
import Drana.Genesis
import Drana.StateFacts
import Drana.StateRoot
import Drana.Store
import Drana.StoreFacts
import Drana.Run
import Drana.Writes
import Drana.NoWrap
import Drana.Operations
import Drana.Accounting
import Drana.Stakes
import Drana.Effects
import Drana.TxEffects
import Drana.Conservation
import Drana.PostBooks
import Drana.Dust
import Drana.Acceptance
import Drana.PostLedger
import Drana.Texts
import Drana.Nonces
import Drana.Threads
import Drana.Restart
import Drana.Lib.Quorum
import Drana.Consensus
import Drana.Engine
import Drana.Certificates
import Drana.Accountability
import Drana.NodeRuns
import Drana.Lib.Text
import Drana.Lib.Delimited
import Drana.Utf8
import Drana.Encodings
import Drana.Rpc
import Drana.GenesisFile
import Drana.Cli
import Drana.Wallet
import Drana.BlockStore
import Drana.Indexer
import Drana.IndexTables
import Drana.IndexRuns
import Drana.Lib.Both
import Drana.Registry
import Drana.Reboots
import Drana.Twins
import Drana.Simulation
import Drana.Boots
import Drana.Commitment
import Drana.Wire
import Drana.Names
import Drana.Balances
import Drana.Schedule
import Drana.Epochs
import Drana.Penalties
import Drana.Halting
import Drana.Lib.Deferred
import Drana.Unbonding
import Drana.Mempool
import Drana.Proposals
import Drana.Network
import Drana.Slots
import Drana.Agreement
import Drana.Json
import Drana.Lib.Panic
import Drana.Sync
import Drana.Malformed
import Drana.CatchUp
import Drana.Eviction
import Drana.Rewards
import Drana.Lib.Script
import Drana.Interruptions
import Drana.Reindexing
import Drana.Exactness
import Drana.Slashing
import Drana.Lib.Segments
import Drana.Rotation
import Drana.Decoding
import Drana.Lib.Runs
import Drana.PostText
import Drana.Reaping
import Drana.Turns
import Drana.Selection
import Drana.Lib.Pages
import Drana.Feed
import Drana.Reviver
import Drana.Responses
import Drana.NameGrammar
import Drana.Lib.Hex
import Drana.AddressText
import Drana.Progress
import Drana.TxStatus
import Drana.Peers
import Drana.Lib.Trail
import Drana.Discovery
import Drana.Relay
import Drana.History
import Drana.Fleet
import Drana.Following
import Drana.Keyring
