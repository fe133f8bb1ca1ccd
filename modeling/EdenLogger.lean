import EdenLogger.RunRules
import EdenLogger.RunCosts
import EdenLogger.WakeUpPermit
import EdenLogger.WireFormat
import EdenLogger.ExporterConfig
import EdenLogger.ExporterLanes
import EdenLogger.LogCollector
import EdenLogger.RequestSizer
import EdenLogger.CompletionTracking
import EdenLogger.ListCells
import EdenLogger.PairOrder
import EdenLogger.FlushSoundness
import EdenLogger.FlushDelay
import EdenLogger.FlushWakeUps
import EdenLogger.BatchLimits
import EdenLogger.GracefulDrain
import EdenLogger.TerminalLedger
import EdenLogger.AbortLedger
import EdenLogger.ExportOrder
import EdenLogger.CapacityAccount
import EdenLogger.ConcurrentClaimers
import EdenLogger.AdmissionClaims
import EdenLogger.GaugeUnderflow
import EdenLogger.RejectedSubmissions
import EdenLogger.SequentialAdmission
import EdenLogger.AdmissionRefinement
import EdenLogger.AdmissionSequences
import EdenLogger.SinkRegistry
import EdenLogger.SinkHolders
import EdenLogger.SinkDispatch
import EdenLogger.WriterLaws
import EdenLogger.DispatchDelivery
import EdenLogger.ExporterProcess
import EdenLogger.ProcessMoves
import EdenLogger.GenerationChanges
import EdenLogger.RecordRouting
import EdenLogger.LaneLifetime
import EdenLogger.LifecycleStatus
import EdenLogger.BatchExport
import EdenLogger.BatchClosing
import EdenLogger.WorkerEffort
import EdenLogger.ShutdownProgress
import EdenLogger.WorkerRest
import EdenLogger.StatusReading
import EdenLogger.LockOrder
import EdenLogger.CollectorLocks
import EdenLogger.CallbackProgress
import EdenLogger.FlushReturns
import EdenLogger.CallTotals
import EdenLogger.RecordContent
import EdenLogger.Halving
import EdenLogger.RecordCopies
import EdenLogger.JsonText
import EdenLogger.JsonEscape
import EdenLogger.LogRecord
import EdenLogger.JsonLine
import EdenLogger.DisplayLine
import EdenLogger.LockedWriters
import EdenLogger.JsonStream
import EdenLogger.EmissionNesting
import EdenLogger.OtlpMapper
import EdenLogger.TracePairing
import EdenLogger.LogSerde
import EdenLogger.CallHistory
import EdenLogger.LevelFilter
import EdenLogger.FilterOrder
import EdenLogger.LevelMasks
import EdenLogger.AttributePrecedence
import EdenLogger.OtlpReading
import EdenLogger.MemberNames
import EdenLogger.EscapeChunks
import EdenLogger.CompletionOrder
import EdenLogger.PoisonIsolation
import EdenLogger.AssemblyTakes
import EdenLogger.RetryDelay
import EdenLogger.WorkerPanics
import EdenLogger.SizingExactness
import EdenLogger.ContextMerge
import EdenLogger.EmergencyDiagnostics
import EdenLogger.TimestampText
import EdenLogger.TimestampCaching
import EdenLogger.DrainFairness
import EdenLogger.MacroGrammar
import EdenLogger.LetBlocks
import EdenLogger.MacroExpansion
