import TreeQuery.Attributes
import TreeQuery.Check
import TreeQuery.Data.Display
import TreeQuery.Data.Equality
import TreeQuery.Notice
import TreeQuery.Path.Break
import TreeQuery.Path.Checked
import TreeQuery.Path.Grammar
import TreeQuery.Query.Denotation
import TreeQuery.Reading
import TreeQuery.Store.Sharing
import TreeQuery.Proofs.Access.Attributes
import TreeQuery.Proofs.Access.Guarded
import TreeQuery.Proofs.Access.Lookups
import TreeQuery.Proofs.Access.Records
import TreeQuery.Proofs.Cache.Capacity
import TreeQuery.Proofs.Cache.History
import TreeQuery.Proofs.Cache.Recency
import TreeQuery.Proofs.Cache.Transparency
import TreeQuery.Proofs.Check.Equality
import TreeQuery.Proofs.Check.Snapshot
import TreeQuery.Proofs.Check.Verdict
import TreeQuery.Proofs.Edit.Batch
import TreeQuery.Proofs.Edit.Descent
import TreeQuery.Proofs.Edit.Endings
import TreeQuery.Proofs.Edit.Forward
import TreeQuery.Proofs.Edit.Frame
import TreeQuery.Proofs.Edit.Laws
import TreeQuery.Proofs.Edit.Loading
import TreeQuery.Proofs.Edit.Reads
import TreeQuery.Proofs.Edit.Relocation
import TreeQuery.Proofs.Edit.Removal
import TreeQuery.Proofs.Edit.Revision
import TreeQuery.Proofs.Edit.SearchAgain
import TreeQuery.Proofs.Edit.Slots
import TreeQuery.Proofs.Edit.Update
import TreeQuery.Proofs.Path.Breaks
import TreeQuery.Proofs.Path.Canonical
import TreeQuery.Proofs.Path.Concrete
import TreeQuery.Proofs.Path.Digits
import TreeQuery.Proofs.Path.Forms
import TreeQuery.Proofs.Path.Normal
import TreeQuery.Proofs.Path.Pointer
import TreeQuery.Proofs.Path.Position
import TreeQuery.Proofs.Path.Steps
import TreeQuery.Proofs.Record
import TreeQuery.Proofs.Search.Accumulation
import TreeQuery.Proofs.Search.Composition
import TreeQuery.Proofs.Search.DocumentOrder
import TreeQuery.Proofs.Search.ExactPlace
import TreeQuery.Proofs.Search.FirstFailure
import TreeQuery.Proofs.Search.MemberOrder
import TreeQuery.Proofs.Search.Nulls
import TreeQuery.Proofs.Search.Relaxed
import TreeQuery.Proofs.Search.Reordered
import TreeQuery.Proofs.Search.Reports
