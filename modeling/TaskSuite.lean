import TaskSuite.Machine
import TaskSuite.Tally
import TaskSuite.RwSpinLock
import TaskSuite.RwSpinLockThreads
import TaskSuite.SignalTest
import TaskSuite.BenchmarkBarrier
import TaskSuite.TaskCondition
import TaskSuite.TaskMutex
import TaskSuite.HelloWorld
import TaskSuite.FibonacciTasks
import TaskSuite.QadFutex
import TaskSuite.QadFutexWakes
import TaskSuite.SpinSemaphoreWord
import TaskSuite.WaitSignalCounters
import TaskSuite.WaitSignalRefinement
import TaskSuite.WaitSignalReordering
import TaskSuite.WaitSignalDiagram
import TaskSuite.PriorityQueue
import TaskSuite.TimerSpec
import TaskSuite.TimerHeap
import TaskSuite.TimerMultimap
import TaskSuite.TimerAgreement
import TaskSuite.TimerLedger
import TaskSuite.TimerRuns
import TaskSuite.TimerCounters
import TaskSuite.Substitution
import TaskSuite.Regex
import TaskSuite.RegexSemantics
import TaskSuite.RewriteHeader
import TaskSuite.RewriteHeaderMain
import TaskSuite.RewriteHeaderStages
import TaskSuite.RewriteHeaderBounds
import TaskSuite.RewriteHeaderYears
import TaskSuite.RewriteHeaderRuns
import TaskSuite.RewriteHeaderCopyright
import TaskSuite.RewriteHeaderStated
import TaskSuite.RewriteHeaderFound
import TaskSuite.RewriteHeaderText
import TaskSuite.RewriteHeaderReading
import TaskSuite.RewriteHeaderComment
import TaskSuite.RewriteHeaderCode
import TaskSuite.RewriteHeaderKept
import TaskSuite.RewriteHeaderModule
import TaskSuite.RewriteHeaderRename
import TaskSuite.RewriteHeaderReread
import TaskSuite.RewriteHeaderTwice
import TaskSuite.Tournament
import TaskSuite.TreeProp
import TaskSuite.Ranks
import TaskSuite.TreePropTest
import TaskSuite.TimerSanity
import TaskSuite.TscKmod
import TaskSuite.RunningMode
import TaskSuite.CalibrateDelta
import TaskSuite.ThreadPool
import TaskSuite.MutexTestBarrier
import TaskSuite.MutexTestHistogram
import TaskSuite.SpinWakeupBuckets
import TaskSuite.FiboQuick
import TaskSuite.Completion
import TaskSuite.StatefulTaskMutex
import TaskSuite.StatefulTaskMutexRuns
import TaskSuite.PointerStorage
import TaskSuite.Shares
import TaskSuite.TimerWorkload
import TaskSuite.RwSpinLockPolicy
import TaskSuite.Tracking
import TaskSuite.SpinWakeup
import TaskSuite.SpinWakeupRuns
import TaskSuite.RewriteHeaderFiles
import TaskSuite.RewriteHeaderSecondRun
import TaskSuite.TscKmodStart
import TaskSuite.MutexBenchmark
import TaskSuite.CalibrateClock
import TaskSuite.TimerThreadsafety
import TaskSuite.TimerThread
