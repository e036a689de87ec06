import CanonicalCwl.Main
import CanonicalCwl.Proofs.Entries
import CanonicalCwl.Proofs.Result
import CanonicalCwl.Proofs.Shape.Reading
import CanonicalCwl.Proofs.TypeExpr.Notation
import CanonicalCwl.Proofs.TypeExpr.Tree
import CanonicalCwl.Proofs.Process.Part
import CanonicalCwl.Proofs.Loader.RoundTrip
import CanonicalCwl.Proofs.Loader.Bundle
import CanonicalCwl.Proofs.Loader.File
import CanonicalCwl.Proofs.Loader.Dangling
import CanonicalCwl.Proofs.Loader.Session
import CanonicalCwl.Proofs.Schema.Search
import CanonicalCwl.Proofs.Schema.Survey
import CanonicalCwl.Proofs.Schema.Inheritance
import CanonicalCwl.Proofs.Process.Canonical
import CanonicalCwl.Proofs.Loader.Canonical
import CanonicalCwl.Proofs.Shape.Tidy
import CanonicalCwl.Proofs.Shape.Writing
import CanonicalCwl.Proofs.Process.Written
import CanonicalCwl.Proofs.Process.Target
import CanonicalCwl.Proofs.Process.Fieldwise
import CanonicalCwl.Proofs.TypeExpr.ShortForm
import CanonicalCwl.Proofs.Process.ShortForm
import CanonicalCwl.Proofs.Process.Stable
import CanonicalCwl.Proofs.Process.PassOrder
import CanonicalCwl.Proofs.Process.ParameterType
import CanonicalCwl.Proofs.Process.ClassFault
import CanonicalCwl.Proofs.Loader.Linked
import CanonicalCwl.Proofs.Loader.Coherence
import CanonicalCwl.Proofs.Loader.History
import CanonicalCwl.Proofs.Loader.MemberOrder
import CanonicalCwl.Proofs.Schema.Inline
import CanonicalCwl.Proofs.Schema.Registry
import CanonicalCwl.Proofs.Schema.Grounded
import CanonicalCwl.Proofs.Schema.NodeOrder
import CanonicalCwl.Proofs.Schema.SearchStart
import CanonicalCwl.Proofs.TypeExpr.Grammar
import CanonicalCwl.Proofs.TypeExpr.Fields
import CanonicalCwl.Proofs.Schema.Dropped
import CanonicalCwl.Proofs.Schema.Lifting
import CanonicalCwl.Proofs.Shape.Stable
import CanonicalCwl.Proofs.Plan.Wrappers
import CanonicalCwl.Proofs.Plan.Nearest
import CanonicalCwl.Proofs.Plan.WrapperNames
import CanonicalCwl.Proofs.Emit.RustNames
import CanonicalCwl.Proofs.Plan.Members
import CanonicalCwl.Proofs.Plan.WrapperOrder
import CanonicalCwl.Proofs.Emit.Repetition
import CanonicalCwl.Proofs.Emit.WrapperUse
import CanonicalCwl.Proofs.CommandLine.Run
import CanonicalCwl.Proofs.Plan.Optional
import CanonicalCwl.Proofs.TypeExpr.KeyedFields
import CanonicalCwl.Proofs.Identifier
import CanonicalCwl.Proofs.Identifier.Legal
import CanonicalCwl.Proofs.Emit.RustFields
import CanonicalCwl.Proofs.Files.Write
