import StepPipeline.Library.LabelledRun
import StepPipeline.Library.IntrusiveList
import StepPipeline.Kernel
import StepPipeline.Measurement
import StepPipeline.Filter
import StepPipeline.FilterGrammar
import StepPipeline.Library.BitField
import StepPipeline.FilterFields
import StepPipeline.Library.CheckedInt
import StepPipeline.PayloadSize
import StepPipeline.Library.PriorityOrder
import StepPipeline.Cache
import StepPipeline.Node
import StepPipeline.Registry
import StepPipeline.Subscribers
import StepPipeline.Dispatch
import StepPipeline.DispatchReturns
import StepPipeline.DispatchOrder
import StepPipeline.CallbackIdentity
import StepPipeline.CacheSimulation
import StepPipeline.CacheCoherence
import StepPipeline.CacheTransparency
import StepPipeline.Library.ByteMemory
import StepPipeline.SamplePool
import StepPipeline.NewMeasurement
import StepPipeline.PoolAccounting
import StepPipeline.Library.BoundedMap
import StepPipeline.CacheRuns
import StepPipeline.CacheMap
import StepPipeline.CacheRecency
import StepPipeline.HandleValidity
import StepPipeline.CallbackPool
import StepPipeline.ChainTrace
import StepPipeline.SubscriberDelivery
import StepPipeline.WorkQueue
import StepPipeline.Pipeline
import StepPipeline.MeasurementLife
import StepPipeline.RegistrationResult
import StepPipeline.NullCallbacks
import StepPipeline.EvaluationErrors
import StepPipeline.RunAccounting
import StepPipeline.CycleReadings
import StepPipeline.Library.Behaviour
import StepPipeline.Broker
import StepPipeline.BrokerCalls
import StepPipeline.BrokerDispatch
import StepPipeline.BrokerRuns
import StepPipeline.BrokerLaws
import StepPipeline.PipelineService
import StepPipeline.PipelineLiveness
import StepPipeline.Library.FairRun
import StepPipeline.PipelineFairness
import StepPipeline.ResourceDiscipline
import StepPipeline.WorkQueueStart
import StepPipeline.Listing
import StepPipeline.CallbackLookup
import StepPipeline.Isolation
import StepPipeline.Control
import StepPipeline.CacheStatistics
import StepPipeline.FilterAbstraction
import StepPipeline.Library.CriticalSection
import StepPipeline.LockedSections
import StepPipeline.LockLatency
