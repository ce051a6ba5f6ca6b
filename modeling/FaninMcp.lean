import FaninMcp.Foundation.RustText
import FaninMcp.Foundation.OrderedWalks
import FaninMcp.Foundation.AsyncPrograms
import FaninMcp.Foundation.SequentialRuns
import FaninMcp.Foundation.JsonText
import FaninMcp.Foundation.JsonDecode
import FaninMcp.Foundation.JsonRoundTrip
import FaninMcp.Foundation.JsonPretty
import FaninMcp.Foundation.JsonScan
import FaninMcp.Foundation.JsonRewriting
import FaninMcp.Foundation.LossyUtf8
import FaninMcp.Foundation.TextTiling
import FaninMcp.Foundation.TextMasking
import FaninMcp.ErrorModel
import FaninMcp.ConfigModel
import FaninMcp.NamespaceResolver
import FaninMcp.ConfigValidation
import FaninMcp.ResolverDepth
import FaninMcp.ExtendsOrder
import FaninMcp.ResolverVerdict
import FaninMcp.NamespaceAcl
import FaninMcp.CapabilityCache
import FaninMcp.CacheFile
import FaninMcp.Redaction
import FaninMcp.StderrCapture
import FaninMcp.StructuredLog
import FaninMcp.LogLines
import FaninMcp.KeyringModel
import FaninMcp.KeyringRefinement
import FaninMcp.KeyringFailures
import FaninMcp.KeyringOutcomes
import FaninMcp.RegistryModel
import FaninMcp.RegistryWorld
import FaninMcp.RegistryProtocol
import FaninMcp.RegistryObeys
import FaninMcp.RegistryInvariant
import FaninMcp.SingleFlight
import FaninMcp.CancellationSafety
import FaninMcp.EntryLineage
import FaninMcp.InventoryConvergence
import FaninMcp.MetaTools
import FaninMcp.MetaAcl
import FaninMcp.PermissionLayer
import FaninMcp.Discovery
import FaninMcp.DiscoveryAgreement
import FaninMcp.StartupSufficiency
import FaninMcp.TableOfContents
import FaninMcp.CheckRun
import FaninMcp.CacheRoundTrip
import FaninMcp.NoCredentialFlow
import FaninMcp.Foundation.JsonPositions
import FaninMcp.DisplayText
import FaninMcp.SchemaAnnotations
import FaninMcp.AnswerableRequests
import FaninMcp.ToolAddresses
import FaninMcp.TocCompleteness
import FaninMcp.DisplaySurfaces
import FaninMcp.Foundation.WaitGraph
import FaninMcp.LockDiscipline
import FaninMcp.NotifiedEntry
import FaninMcp.NotifiedReads
import FaninMcp.ElicitationModel
import FaninMcp.SessionWorld
import FaninMcp.ElicitationHonesty
import FaninMcp.ElicitationLifetime
import FaninMcp.PlaceholderExpansion
import FaninMcp.CachePaths
import FaninMcp.Foundation.GregorianCalendar
import FaninMcp.Timestamps
import FaninMcp.StderrLines
import FaninMcp.RedactionStability
import FaninMcp.ServerNames
import FaninMcp.Foundation.InterleavedRuns
import FaninMcp.ConcurrentNames
import FaninMcp.PreflightVerdict
import FaninMcp.Foundation.EventRuns
import FaninMcp.Foundation.SharedOwnership
import FaninMcp.InvokeForwarding
import FaninMcp.ProcessModel
import FaninMcp.ProcessLifetimes
import FaninMcp.LogPipeline
import FaninMcp.LogDelivery
import FaninMcp.LogProducers
import FaninMcp.LogAttribution
import FaninMcp.Foundation.RelatedRuns
import FaninMcp.CredCommands
import FaninMcp.CredSecrecy
import FaninMcp.CredSessions
import FaninMcp.Foundation.JsonPrefix
import FaninMcp.TornCache
import FaninMcp.RequestRoutine
import FaninMcp.CredentialScope
import FaninMcp.ProcessBound
import FaninMcp.PreflightPromise
import FaninMcp.ElicitationMediation
import FaninMcp.ReadableReports
import FaninMcp.ResolverWork
import FaninMcp.HonestTimeouts
import FaninMcp.ConcurrentStores
