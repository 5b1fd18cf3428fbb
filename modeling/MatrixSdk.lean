import MatrixSdk.StoreIsolation
import MatrixSdk.EventOrder
import MatrixSdk.AggregationIndexes
import MatrixSdk.LastEdits
import MatrixSdk.Orphans
import MatrixSdk.SendOrder
import MatrixSdk.ArrivalOrder
import MatrixSdk.BatchedKeys
import MatrixSdk.Oversharing
import MatrixSdk.InboundTwins
import MatrixSdk.UnexpiredSessions
import MatrixSdk.Unwedging
import MatrixSdk.VerificationCaches
import MatrixSdk.WakeUps
import MatrixSdk.LeasedGuards
import MatrixSdk.DirtyLocks
import MatrixSdk.StickySubscribers
import MatrixSdk.InvalidatedUsers
import MatrixSdk.KeyUploads
import MatrixSdk.Backpagination
import MatrixSdk.LoadCycles
import MatrixSdk.FlatLists
import MatrixSdk.Reindexing
import MatrixSdk.BackPaginationQueue
import MatrixSdk.SkipCounts
import MatrixSdk.GapRepairs
import MatrixSdk.EncryptedFiles
import MatrixSdk.WidgetFilters
