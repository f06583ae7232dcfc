import FCMalloc.Library.ByteMemory
import FCMalloc.Library.LinkedChain
import FCMalloc.Library.QueueFamily
import FCMalloc.Library.IntrusiveQueue
import FCMalloc.Library.Extent
import FCMalloc.Library.CountedLoop
import FCMalloc.Library.BitLength
import FCMalloc.Library.TransitionSystem
import FCMalloc.Library.CString
import FCMalloc.FirstTouch
import FCMalloc.ArenaSafety
import FCMalloc.Leasing
import FCMalloc.OutOfMemory
import FCMalloc.HeapGrowth
import FCMalloc.Deadlock
import FCMalloc.NullManager
import FCMalloc.OwnershipRuns
import FCMalloc.Placement
import FCMalloc.BoundedGrowth
import FCMalloc.BatchPop
import FCMalloc.QueueRefinement
import FCMalloc.CarvingArithmetic
import FCMalloc.HandBack
import FCMalloc.SizeListFile
import FCMalloc.ExtensionLedger
import FCMalloc.EndToEnd
import FCMalloc.Realloc
import FCMalloc.Calloc
import FCMalloc.BoundedHoarding
import FCMalloc.SizeClasses
import FCMalloc.ListWiring
import FCMalloc.Library.Numeral
import FCMalloc.MyprintfImpl
import FCMalloc.NumberRendering
import FCMalloc.FormatScanning
import FCMalloc.Library.ClientHeap
import FCMalloc.ClientView
import FCMalloc.ClientRefinement
import FCMalloc.Completion
import FCMalloc.RaceFreedom
import FCMalloc.Library.Asserted
import FCMalloc.DebugBuild
import FCMalloc.DebugLists
import FCMalloc.DebugRuns
import FCMalloc.ManagerLine
import FCMalloc.FifoReuse
import FCMalloc.QueueMachine
import FCMalloc.QueueSimulation
import FCMalloc.SequentialCalls
import FCMalloc.MappedMemory
import FCMalloc.Confinement
import FCMalloc.Reports
import FCMalloc.ClzIndependence
