import FusionGraph.Foundations.Checked
import FusionGraph.Foundations.StableBuckets
import FusionGraph.Core.Types
import FusionGraph.Core.BreakerTimeout
import FusionGraph.Core.BreakerRaces
import FusionGraph.Core.Delta
import FusionGraph.Core.DeltaSteps
import FusionGraph.Core.DeltaRaces
import FusionGraph.Core.DrainRaces
import FusionGraph.Core.StoreRun
import FusionGraph.Core.CompactedWeights
import FusionGraph.Core.CompactionSchedules
import FusionGraph.Core.NodeAddressing
import FusionGraph.Core.MixedCalls
import FusionGraph.Catalog.FailedCompaction
import FusionGraph.Catalog.ResidentTranspose
import FusionGraph.Catalog.RacingWriter
import FusionGraph.Catalog.Serializability
import FusionGraph.Traversal.CompactedTraversal
import FusionGraph.Traversal.DirectionOptimized
import FusionGraph.Traversal.MutationFallback
import FusionGraph.Traversal.SimdKernels
import FusionGraph.Catalog.TransposeLaws
import FusionGraph.Exec.IncomingTraversal
import FusionGraph.Traversal.StartNodes
import FusionGraph.Traversal.FastPath
import FusionGraph.Exec.KeyQueries
import FusionGraph.Exec.TraversePlanning
import FusionGraph.Exec.StreamOutcome
import FusionGraph.Catalog.DictionaryProjection
import FusionGraph.Ontology.Validation
import FusionGraph.Catalog.OntologyRegistration
import FusionGraph.Catalog.WeightDefaults
import FusionGraph.Catalog.GraphTableProvider
import FusionGraph.Traversal.ClearedBitset
import FusionGraph.Traversal.RacingSearchSpec
import FusionGraph.Catalog.RacingTranspose
import FusionGraph.Exec.ProviderPlans
import FusionGraph.Core.BreakerFailures
import FusionGraph.Exec.AsOfRegistration
import FusionGraph.Core.EdgeCalls
import FusionGraph.Catalog.NamedStores
