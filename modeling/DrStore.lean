import DrStore.Base.Fallible
import DrStore.Base.Runs
import DrStore.Base.FencedLease
import DrStore.Base.Calendar
import DrStore.Base.PyJson
import DrStore.Store.ContentAddressing
import DrStore.Leases.Models
import DrStore.Leases.Authority
import DrStore.Leases.Protocol
import DrStore.Leases.History
import DrStore.Leases.Fencing
import DrStore.Base.Collections
import DrStore.Base.JsonText
import DrStore.Base.Pool
import DrStore.Base.Versions
import DrStore.Documents.CanonicalJson
import DrStore.Documents.Publication
import DrStore.Leases.Failures
import DrStore.Leases.Refinement
import DrStore.Leases.Serializable
import DrStore.Store.Agreement
import DrStore.Store.Bindings
import DrStore.Store.Eviction
import DrStore.Base.KeyLocks
import DrStore.Base.PyText
import DrStore.Bundles.Audit
import DrStore.Bundles.Budget
import DrStore.Bundles.Consumption
import DrStore.Documents.Sidecar
import DrStore.Leases.Authoritative
import DrStore.Leases.Interruption
import DrStore.Leases.Recovery
import DrStore.Leases.Renewal
import DrStore.Leases.Republication
import DrStore.LocalFs.Descriptors
import DrStore.LocalFs.FileLocks
import DrStore.Store.Admission
import DrStore.Store.Atomicity
import DrStore.Store.BatchReads
import DrStore.Store.CacheLifecycle
import DrStore.Store.FirstWriter
import DrStore.Store.LockOrder
import DrStore.Store.Settlement
import DrStore.Store.VerifiedReads
import DrStore.Store.WireStrings
import DrStore.Sync.Lifecycle
import DrStore.Sync.Registry
import DrStore.Base.Exclusive
import DrStore.Leases.Initialization
import DrStore.Store.Enlisted
import DrStore.Store.Winners
import DrStore.Base.Histories
import DrStore.Leases.Processes
import DrStore.Store.Installation
import DrStore.Store.Processes
import DrStore.Bundles.Acceptance
import DrStore.Store.SharedCache
import DrStore.Store.Opening
import DrStore.Store.StatementSizes
