import Introspect.Expression
import Introspect.Instance
import Introspect.Match.Matcher
import Introspect.Registry
import Introspect.Settings
import Introspect.Ty.Interchange
import Introspect.Value.Equality
import Introspect.Value.Snapshot
import Introspect.Value.Text
import Introspect.Proofs.Generic.FixedPoint
import Introspect.Proofs.Match.GenericConstraint
import Introspect.Proofs.Match.Merging
import Introspect.Proofs.Match.NestedDecomposition
import Introspect.Proofs.Match.SlotOrder
import Introspect.Proofs.Match.SourceInstance
import Introspect.Proofs.Path.Directives
import Introspect.Proofs.Path.FreshInstance
import Introspect.Proofs.Path.Indexing
import Introspect.Proofs.Path.Overload
import Introspect.Proofs.Path.Soundness
import Introspect.Proofs.Path.StaticSlot
import Introspect.Proofs.Path.Writability
import Introspect.Proofs.Ty.Assignability
import Introspect.Proofs.Ty.Instantiation
import Introspect.Proofs.Ty.SourceForm
import Introspect.Proofs.Ty.Termination
import Introspect.Proofs.Value.Equality
import Introspect.Proofs.Value.Text
import Introspect.Proofs.Path.Joining
import Introspect.Proofs.Match.Events
import Introspect.Proofs.Ty.Spelling
import Introspect.Proofs.Decimal.Rounding
