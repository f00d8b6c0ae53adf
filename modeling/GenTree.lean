import GenTree.Library.Outcome
import GenTree.Library.CountingSort
import GenTree.Library.DecisionTree
import GenTree.Basic
import GenTree.Domain
import GenTree.Expr
import GenTree.CoverageStore
import GenTree.CNode
import GenTree.CTree
import GenTree.TreeText
import GenTree.NodeTree
import GenTree.Growth
import GenTree.BuildTree
import GenTree.Formula
import GenTree.RoundTrip
import GenTree.FlatCode
import GenTree.CoverageInvariant
import GenTree.Library.Machine
import GenTree.Cex
import GenTree.Iter2
import GenTree.Fresh
import GenTree.RunConfigs
import GenTree.Records
import GenTree.Library.Leaders
import GenTree.Grouping
import GenTree.Finish
import GenTree.Steps
import GenTree.Queue
import GenTree.Reports
import GenTree.Scheduling
import GenTree.FinalReport
import GenTree.Verdict
import GenTree.Rechecking
import GenTree.AllConfigs
import GenTree.GroundTruth
import GenTree.Leaves
import GenTree.Templates
import GenTree.Covering
import GenTree.LeafConfigs
import GenTree.Library.Separated
import GenTree.CacheRecord
import GenTree.Library.Interleaving
import GenTree.WorkQueue
import GenTree.WorkQueueProtocol
import GenTree.ProgramRunnerMt
import GenTree.InitialConfigs
import GenTree.RunOnce
import GenTree.Tracking
import GenTree.Counted
import GenTree.HitMiss
import GenTree.Library.BestScan
import GenTree.SplitChoice
import GenTree.Exhaustive
import GenTree.Partition
import GenTree.UsefulSplit
import GenTree.Library.Peeling
import GenTree.CountModels
import GenTree.CountMemo
import GenTree.Library.GreedyCover
import GenTree.LocEntry
import GenTree.MinConfigs
import GenTree.Library.OrderStatistic
import GenTree.MedianLength
import GenTree.Validation
import GenTree.Library.TextLines
import GenTree.ReportText
import GenTree.PrintedTrees
import GenTree.ReportLines
import GenTree.ReportRoundTrip
import GenTree.Library.KeyedRounds
import GenTree.StreamHash
import GenTree.Library.Boxes
import GenTree.Classification
import GenTree.LocTotal
import GenTree.ResultsCsv
import GenTree.Library.InputStream
import GenTree.RunnerScript
import GenTree.ShortValues
import GenTree.Library.MergeScan
import GenTree.IterAlgo
import GenTree.TruthScan
import GenTree.OtterRunner
import GenTree.OtterTraces
import GenTree.ConfigSpace
import GenTree.Termination
import GenTree.RandEachIteration
import GenTree.MurmurHash3
import GenTree.Library.WordMixing
import GenTree.FullValidation
import GenTree.ReportValidation
import GenTree.IterStore
import GenTree.IterReport
import GenTree.DomainFile
import GenTree.BuiltinPrograms
import GenTree.StatusLine
import GenTree.Comparison
import GenTree.ComparedReports
import GenTree.ReportDiff
import GenTree.ReportCover
import GenTree.ReadResult
import GenTree.IterRuns
import GenTree.Generated
import GenTree.DistinctStore
