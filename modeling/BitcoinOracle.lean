import BitcoinOracle.BitcoinReader
import BitcoinOracle.BitcoinProof
import BitcoinOracle.ConsensusBuff
import BitcoinOracle.Sha256
import BitcoinOracle.Registry
import BitcoinOracle.Oracle
import BitcoinOracle.Indexing
import BitcoinOracle.LatestWins
import BitcoinOracle.LoggedRun
import BitcoinOracle.World
import BitcoinOracle.BalanceOrder
import BitcoinOracle.Threshold
import BitcoinOracle.Relayers
import BitcoinOracle.Overlay
import BitcoinOracle.RegistryRefinement
import BitcoinOracle.IndexedRecords
import BitcoinOracle.ValidatorKeys
import BitcoinOracle.HeightBinding
import BitcoinOracle.MinedKeys
import BitcoinOracle.MinedSoundness
import BitcoinOracle.OlderOracles
import BitcoinOracle.Unauthorised
import BitcoinOracle.PausedRegistry
import BitcoinOracle.Encoding
import BitcoinOracle.TransactionFormat
import BitcoinOracle.ReaderExactness
import BitcoinOracle.TransactionReaders
import BitcoinOracle.ListReaders
import BitcoinOracle.TransactionParsers
import BitcoinOracle.TransactionRoundTrip
import BitcoinOracle.BitcoinAborts
import BitcoinOracle.HonestProof
import BitcoinOracle.KeyedTable
import BitcoinOracle.IndexerTables
import BitcoinOracle.ConcurrentPosts
import BitcoinOracle.CallArguments
import BitcoinOracle.RelayerRound
import BitcoinOracle.RelayedBatches
import BitcoinOracle.RelayerTables
import BitcoinOracle.RelayedBlocks
import BitcoinOracle.RelayerMachine
import BitcoinOracle.NoEventLost
import BitcoinOracle.Attestations
import BitcoinOracle.ValidatedOnce
import BitcoinOracle.ValidatedRows
import BitcoinOracle.NonceLoop
import BitcoinOracle.SubmittedIds
import BitcoinOracle.BalanceQueue
import BitcoinOracle.Paging
import BitcoinOracle.IntervalSync
import BitcoinOracle.ReSync
import BitcoinOracle.HeaderSync
import BitcoinOracle.TransactionIds
import BitcoinOracle.BatchSplitting
import BitcoinOracle.Majority
import BitcoinOracle.Verdicts
import BitcoinOracle.Throttling
import BitcoinOracle.BroadcastFees
import BitcoinOracle.ValidatedGroups
import BitcoinOracle.RequestBatching
import BitcoinOracle.Deployments
import BitcoinOracle.Serializers
import BitcoinOracle.BufferFolds
import BitcoinOracle.JsStrings
import BitcoinOracle.JsNumbers
import BitcoinOracle.StageFees
import BitcoinOracle.OrderedAnswers
import BitcoinOracle.IndexingQueries
import BitcoinOracle.GroupedRows
import BitcoinOracle.DrainedGroups
import BitcoinOracle.NumberTexts
import BitcoinOracle.JsonText
import BitcoinOracle.BigIntJson
import BitcoinOracle.HexInput
import BitcoinOracle.TransactionHelper
import BitcoinOracle.SignedAmounts
import BitcoinOracle.ValidatorCount
import BitcoinOracle.MirrorSwaps
import BitcoinOracle.ByteReversals
import BitcoinOracle.Maintenance
import BitcoinOracle.Fleet
import BitcoinOracle.ConsensusValues
import BitcoinOracle.OrderSigning
import BitcoinOracle.RelayingRules
import BitcoinOracle.HonestValidators
import BitcoinOracle.StagedWork
import BitcoinOracle.Processors
import BitcoinOracle.BlockProcessing
import BitcoinOracle.AccountedTransfers
import BitcoinOracle.ServedEvents
import BitcoinOracle.CalmRound
