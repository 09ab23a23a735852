import CsdWorker.Lib.Memory
import CsdWorker.Lib.Endian
import CsdWorker.Lib.Layout
import CsdWorker.Lib.Regroup
import CsdWorker.Lib.Packing
import CsdWorker.Lib.Grouping
import CsdWorker.Lib.Padded
import CsdWorker.Lib.Occurrence
import CsdWorker.Lib.Scaled
import CsdWorker.Lib.Postfix
import CsdWorker.Lib.Connective
import CsdWorker.Lib.Query
import CsdWorker.Lib.Inserting
import CsdWorker.Lib.Json
import CsdWorker.Lib.Run
import CsdWorker.Lib.Forward
import CsdWorker.Lib.Workers
import CsdWorker.Lib.Tally
import CsdWorker.Lib.Quota
import CsdWorker.Lib.QuotaLedger
import CsdWorker.Lib.QuotaPhases
import CsdWorker.Lib.QuotaOrder
import CsdWorker.DataStructure
import CsdWorker.Utils
import CsdWorker.RawDataHandler
import CsdWorker.DecimalCodec
import CsdWorker.StoredDecimal
import CsdWorker.RowLayout
import CsdWorker.VarString
import CsdWorker.Arithmetic
import CsdWorker.Evaluation
import CsdWorker.ColumnLookup
import CsdWorker.OperandValue
import CsdWorker.PostfixValue
import CsdWorker.CaseOperation
import CsdWorker.Substring
import CsdWorker.ColumnOffset
import CsdWorker.Filter
import CsdWorker.FilterComparison
import CsdWorker.StoredInteger
import CsdWorker.ExpressionNumber
import CsdWorker.PostfixDivision
import CsdWorker.FilterBetween
import CsdWorker.FilterIn
import CsdWorker.Like
import CsdWorker.Scan
import CsdWorker.SstScan
import CsdWorker.BlockScan
import CsdWorker.BatchAppend
import CsdWorker.ScanPaths
import CsdWorker.IndexScan
import CsdWorker.ScanWorker
import CsdWorker.Projection
import CsdWorker.SingleOperand
import CsdWorker.SharedSchema
import CsdWorker.FilterList
import CsdWorker.FilterBypass
import CsdWorker.ProjectionBound
import CsdWorker.ProjectionFrame
import CsdWorker.ProjectionBuffers
import CsdWorker.ProjectionView
import CsdWorker.ProjectionRun
import CsdWorker.ProjectionCorrect
import CsdWorker.ProjectionOrder
import CsdWorker.ProjectionMessages
import CsdWorker.ProjectionProgress
import CsdWorker.Pipeline
import CsdWorker.PipelineCorrect
import CsdWorker.InputWorker
import CsdWorker.ParseSnippet
import CsdWorker.BlockFetcher
import CsdWorker.WorkQueue
import CsdWorker.QueueProgress
import CsdWorker.ScanRequest
import CsdWorker.ReturnWorker
import CsdWorker.WorkerModule
import CsdWorker.RequestsServed
import CsdWorker.AnswersReceived
import CsdWorker.RowStatistics
import CsdWorker.Tmax.DataBlk
import CsdWorker.Tmax.Ex
import CsdWorker.Tmax.BuildData
import CsdWorker.Tmax.ColumnWalk
import CsdWorker.Tmax.ColumnOut
import CsdWorker.Tmax.ExCorrect
import CsdWorker.Tmax.ChainedRow
import CsdWorker.Tmax.ChainedChunk
import CsdWorker.Tmax.Comparison
import CsdWorker.Tmax.FilterLayout
import CsdWorker.Tmax.Base64
import CsdWorker.Tmax.ResultBuffer
import CsdWorker.Tmax.ChunkFrames
import CsdWorker.Tmax.ResultFrames
import CsdWorker.Tmax.BlockFile
import CsdWorker.Tmax.ChunkCount
import CsdWorker.Tmax.BlockCount
import CsdWorker.Tmax.WorkingIds
import CsdWorker.Tmax.BlockReads
import CsdWorker.SnippetDocument
import CsdWorker.Tmax.Service
import CsdWorker.SnippetOrder
import CsdWorker.StorageDevice
import CsdWorker.MainThreads
