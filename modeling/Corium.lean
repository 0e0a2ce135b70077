import Corium.Authz.Authorizer
import Corium.Authz.CacheKey
import Corium.Authz.Eval
import Corium.Authz.Exposure
import Corium.Authz.Policy
import Corium.Authz.Refresh
import Corium.Core.Canonical
import Corium.Core.Datom
import Corium.Core.Encoding
import Corium.Core.Ids
import Corium.Core.Keyword
import Corium.Core.Schema
import Corium.Core.SealPlaintext
import Corium.Core.Value
import Corium.Db.Basic
import Corium.Db.Bootstrap
import Corium.Db.Cached
import Corium.Db.Idents
import Corium.Db.Ranges
import Corium.Db.Saga
import Corium.Db.SchemaDatoms
import Corium.Db.SchemaOrder
import Corium.Db.SchemaReplay
import Corium.Db.TimeTravel
import Corium.Db.Views
import Corium.Forms.Digest
import Corium.Forms.SchemaPlan
import Corium.Forms.SchemaTx
import Corium.Forms.TxForms
import Corium.Index.Chunks
import Corium.Index.Handles
import Corium.Index.Passes
import Corium.Index.Segment
import Corium.Lib.BreadthFirst
import Corium.Lib.Chunking
import Corium.Lib.Counter
import Corium.Lib.DepthFirst
import Corium.Lib.Fields
import Corium.Lib.Insertion
import Corium.Lib.Lines
import Corium.Lib.Marking
import Corium.Lib.OrdCode
import Corium.Lib.Replay
import Corium.Lib.Result
import Corium.Lib.SortedMerge
import Corium.Lib.Wire
import Corium.Log.Agreement
import Corium.Log.Canonical
import Corium.Log.Frames
import Corium.Log.Implementations
import Corium.Log.Record
import Corium.Log.Versioned
import Corium.Peer.Subscription
import Corium.Protocol.Codec
import Corium.Protocol.RoundTrip
import Corium.Protocol.Wire
import Corium.Query.Builtins
import Corium.Query.Edn
import Corium.Store.Collect
import Corium.Store.RootRecord
import Corium.Store.Snapshot
import Corium.Transactor.Alternation
import Corium.Transactor.BranchLog
import Corium.Transactor.Commit
import Corium.Transactor.FreshIds
import Corium.Transactor.Grants
import Corium.Transactor.GroupCommit
import Corium.Transactor.Hosted
import Corium.Transactor.IdentRegistry
import Corium.Transactor.Instants
import Corium.Transactor.Lease
import Corium.Transactor.Life
import Corium.Transactor.Log
import Corium.Transactor.MergeRuns
import Corium.Transactor.MergeUnion
import Corium.Transactor.Names
import Corium.Transactor.Publish
import Corium.Transactor.Recovery
import Corium.Transactor.Registry
import Corium.Transactor.Reservation
import Corium.Transactor.SagaBlocks
import Corium.Transactor.SagaCommit
import Corium.Transactor.SagaEnds
import Corium.Transactor.SagaGuards
import Corium.Transactor.SagaNode
import Corium.Transactor.SchemaAtomic
import Corium.Transactor.SchemaFrame
import Corium.Transactor.SchemaLog
import Corium.Transactor.Takeover
import Corium.Tx.Alloc
import Corium.Tx.Alternation
import Corium.Tx.Branch
import Corium.Tx.Constraints
import Corium.Tx.Effects
import Corium.Tx.Merge
import Corium.Tx.Prepare
import Corium.Tx.Registry
import Corium.Tx.Resolution
import Corium.Tx.RetractEntity
import Corium.Tx.Saga
import Corium.Tx.Translate
