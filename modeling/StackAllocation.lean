import StackAllocation.RoundTrip
import StackAllocation.DerivedPointers
import StackAllocation.Deoptimization
import StackAllocation.DeoptimizationCopy
import StackAllocation.ObjectCopies
import StackAllocation.PointsTo
import StackAllocation.Pruning
import StackAllocation.StackCandidates
import StackAllocation.HeapToStack
import StackAllocation.LockElimination
import StackAllocation.OutArrays
import StackAllocation.LockBoxes
import StackAllocation.LockBoxUsers
import StackAllocation.LockPairing
import StackAllocation.StackLocks
import StackAllocation.ConnectionGraph
import StackAllocation.GraphSteps
import StackAllocation.GraphWalk
import StackAllocation.GraphClosure
import StackAllocation.FieldValues
import StackAllocation.NullValues
import StackAllocation.EscapePropagation
import StackAllocation.EscapeSettling
import StackAllocation.ArraycopyLinks
import StackAllocation.GraphCompletion
import StackAllocation.ClosedGraph
import StackAllocation.ArraycopyDestinations
import StackAllocation.Search
import StackAllocation.IdealGraph
import StackAllocation.LifetimeOverlap
import StackAllocation.CompressedOops
import StackAllocation.FrameSpace
import StackAllocation.InitializeStores
import StackAllocation.StoreChains
import StackAllocation.TileModel
import StackAllocation.CoalescedStores
import StackAllocation.ZeroedStores
import StackAllocation.Dataflow
import StackAllocation.OopFlow
import StackAllocation.LivenessPass
import StackAllocation.ReachingFlows
import StackAllocation.OopMapEntries
import StackAllocation.Dominance
import StackAllocation.MemoryChain
import StackAllocation.PreviousStore
import StackAllocation.PointerUses
import StackAllocation.EntryInitialization
import StackAllocation.Executions
import StackAllocation.MemorySearch
import StackAllocation.MemorySemantics
import StackAllocation.ScanSoundness
import StackAllocation.SearchSoundness
import StackAllocation.CapturedStores
import StackAllocation.FrameSlots
import StackAllocation.ScalarReplacement
import StackAllocation.SafepointScopes
import StackAllocation.ObjectPools
import StackAllocation.PointerCompare
import StackAllocation.EscapeFixpoint
import StackAllocation.FieldSlots
import StackAllocation.VFrames
import StackAllocation.DeferredLocals
import StackAllocation.NodeGraph
import StackAllocation.AllocationUsers
import StackAllocation.UserRemoval
import StackAllocation.InstanceMemory
import StackAllocation.SliceFlow
import StackAllocation.MemorySplitting
import StackAllocation.InstanceSearch
import StackAllocation.PointerFlow
import StackAllocation.SafepointDescriptions
import StackAllocation.HeapRangeChecks
import StackAllocation.WriteBarriers
import StackAllocation.HeapRange
import StackAllocation.LiveSets
import StackAllocation.ScalarAdjustment
import StackAllocation.G1BarrierRemoval
import StackAllocation.LinkedCells
import StackAllocation.CallDebugInfo
import StackAllocation.CallDebugInfoCopy
import StackAllocation.OopMapStreams
import StackAllocation.ImmutableOopMaps
import StackAllocation.ImmutableOopMapFill
import StackAllocation.LockRemoval
import StackAllocation.LockRefinement
import StackAllocation.IdealKit
import StackAllocation.IdealKitMeaning
import StackAllocation.IdealKitNodes
import StackAllocation.IdealKitLabels
import StackAllocation.IdealKitLoops
import StackAllocation.IdealKitThreads
import StackAllocation.IdealKitResult
import StackAllocation.IdealKitTrips
import StackAllocation.IdealKitSsa
import StackAllocation.PreBarriers
import StackAllocation.LoopLifetimes
import StackAllocation.HeapAbstraction
import StackAllocation.EscapeSoundness
import StackAllocation.GraphConstruction
import StackAllocation.ConstructionSteps
import StackAllocation.ConstructionCalls
import StackAllocation.ConstructionResult
import StackAllocation.ConstructionSoundness
