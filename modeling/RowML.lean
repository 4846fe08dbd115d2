import RowML.Class.Evidence
import RowML.Class.Goal
import RowML.Class.Resolve
import RowML.Config
import RowML.Constructor.Basic
import RowML.Constructor.Feature
import RowML.Constructor.Pool
import RowML.Constructor.Printer
import RowML.Constructor.Shift
import RowML.Constructor.Traverse
import RowML.Diagnostic.Basic
import RowML.Diagnostic.Printer
import RowML.Diagnostic.Summary
import RowML.Elaboration.Closing
import RowML.Elaboration.Constructor
import RowML.Elaboration.Definition
import RowML.Elaboration.Expression
import RowML.Elaboration.Finish
import RowML.Elaboration.Generalize
import RowML.Elaboration.Header
import RowML.Elaboration.Identity
import RowML.Elaboration.Matching
import RowML.Elaboration.Monad
import RowML.Elaboration.Path
import RowML.Elaboration.Pattern
import RowML.Elaboration.Program
import RowML.Elaboration.Signature
import RowML.Elaboration.Solving
import RowML.Exchange.Constructor
import RowML.Exchange.Data
import RowML.Exchange.Diagnostic
import RowML.Exchange.Kind
import RowML.Exchange.Module
import RowML.Exchange.Rendered
import RowML.Exchange.Surface
import RowML.Exchange.Term
import RowML.Fuelled
import RowML.Kind.Basic
import RowML.Kind.Printer
import RowML.Kind.Store
import RowML.Kind.Unify
import RowML.Module.Globals
import RowML.Module.Manifest
import RowML.Module.Naming
import RowML.Module.Reference
import RowML.Module.Signature
import RowML.Normal.Full
import RowML.Normal.Head
import RowML.Obligation.Basic
import RowML.Obligation.Queue
import RowML.Proofs.Class.Order
import RowML.Proofs.Composition
import RowML.Proofs.Constructor.Algebra
import RowML.Proofs.Constructor.Children
import RowML.Proofs.Constructor.Congruence
import RowML.Proofs.Constructor.Lockstep
import RowML.Proofs.Constructor.Mention
import RowML.Proofs.Constructor.Node
import RowML.Proofs.Constructor.Pool
import RowML.Proofs.Constructor.Rebuild
import RowML.Proofs.Constructor.Step
import RowML.Proofs.Constructor.Substitution
import RowML.Proofs.Constructor.Twin
import RowML.Proofs.Constructor.Uniform
import RowML.Proofs.Effect
import RowML.Proofs.Elaboration.Balance
import RowML.Proofs.Elaboration.Closing
import RowML.Proofs.Elaboration.Concatenation
import RowML.Proofs.Elaboration.Declaration
import RowML.Proofs.Elaboration.Expression
import RowML.Proofs.Elaboration.Finish
import RowML.Proofs.Elaboration.Finishing
import RowML.Proofs.Elaboration.Forcing
import RowML.Proofs.Elaboration.Frame
import RowML.Proofs.Elaboration.Group
import RowML.Proofs.Elaboration.Identity
import RowML.Proofs.Elaboration.Parameters
import RowML.Proofs.Elaboration.Placement
import RowML.Proofs.Elaboration.Program
import RowML.Proofs.Elaboration.Settling
import RowML.Proofs.Elaboration.Slots
import RowML.Proofs.Elaboration.Steps
import RowML.Proofs.Elaboration.Values
import RowML.Proofs.Elaboration.Waking
import RowML.Proofs.Elaboration.Where
import RowML.Proofs.Execution
import RowML.Proofs.Journal
import RowML.Proofs.Kind.Acyclic
import RowML.Proofs.Kind.Assignment
import RowML.Proofs.Kind.Commutation
import RowML.Proofs.Kind.Composition
import RowML.Proofs.Kind.Conversion
import RowML.Proofs.Kind.Defaults
import RowML.Proofs.Kind.Ends
import RowML.Proofs.Kind.Expansion
import RowML.Proofs.Kind.Final
import RowML.Proofs.Kind.History
import RowML.Proofs.Kind.Journal
import RowML.Proofs.Kind.Principal
import RowML.Proofs.Kind.Reading
import RowML.Proofs.Kind.Rebuild
import RowML.Proofs.Kind.Solutions
import RowML.Proofs.Kind.Unification
import RowML.Proofs.Kind.Variables
import RowML.Proofs.Kind.Zonk
import RowML.Proofs.Lifting
import RowML.Proofs.Module.Anchoring
import RowML.Proofs.Module.Contents
import RowML.Proofs.Module.Growth
import RowML.Proofs.Module.Identity
import RowML.Proofs.Module.Manifest
import RowML.Proofs.Module.Reading
import RowML.Proofs.Normal.Conversion
import RowML.Proofs.Normal.Denotation
import RowML.Proofs.Normal.Domain
import RowML.Proofs.Normal.Exposure
import RowML.Proofs.Normal.FirstOrder
import RowML.Proofs.Normal.Form
import RowML.Proofs.Normal.Full
import RowML.Proofs.Normal.Head
import RowML.Proofs.Normal.Model
import RowML.Proofs.Normal.Observation
import RowML.Proofs.Normal.Preservation
import RowML.Proofs.Normal.Repetition
import RowML.Proofs.Normal.Scope
import RowML.Proofs.Obligation.Account
import RowML.Proofs.Obligation.Queue
import RowML.Proofs.Row.Disjointness
import RowML.Proofs.Row.Domain
import RowML.Proofs.Row.Extension
import RowML.Proofs.Row.FirstOrder
import RowML.Proofs.Row.Ground
import RowML.Proofs.Row.Instantiation
import RowML.Proofs.Row.Labels
import RowML.Proofs.Row.Laws
import RowML.Proofs.Row.Lockstep
import RowML.Proofs.Row.Pieces
import RowML.Proofs.Row.Reduction
import RowML.Proofs.Row.Shape
import RowML.Proofs.Row.Waiting
import RowML.Proofs.Scope
import RowML.Proofs.Store.Complete
import RowML.Proofs.Store.Composition
import RowML.Proofs.Store.Delay
import RowML.Proofs.Store.Discipline
import RowML.Proofs.Store.FirstOrder
import RowML.Proofs.Store.Following
import RowML.Proofs.Store.Imitation
import RowML.Proofs.Store.Journal
import RowML.Proofs.Store.Kinds
import RowML.Proofs.Store.Links
import RowML.Proofs.Store.Lockstep
import RowML.Proofs.Store.Meaning
import RowML.Proofs.Store.Plain
import RowML.Proofs.Store.Reading
import RowML.Proofs.Store.Reporting
import RowML.Proofs.Store.Settling
import RowML.Proofs.Store.Skipping
import RowML.Proofs.Store.Snapshot
import RowML.Proofs.Store.Spelling
import RowML.Proofs.Store.Substitution
import RowML.Proofs.Store.Termination
import RowML.Proofs.Term.Slots
import RowML.Proofs.Unify.Assigning
import RowML.Proofs.Unify.Composition
import RowML.Proofs.Unify.Deciding
import RowML.Proofs.Unify.Equations
import RowML.Proofs.Unify.FirstOrder
import RowML.Proofs.Unify.Integrity
import RowML.Proofs.Unify.Leftovers
import RowML.Proofs.Unify.Lockstep
import RowML.Proofs.Unify.Principal
import RowML.Proofs.Unify.Renaming
import RowML.Proofs.Unify.Reordering
import RowML.Proofs.Unify.Rows
import RowML.Proofs.Unify.Session
import RowML.Proofs.Unify.Soundness
import RowML.Proofs.Unify.Speculation
import RowML.Proofs.Unify.Undoing
import RowML.Row.Disjoint
import RowML.Row.Summary
import RowML.Scope
import RowML.Span
import RowML.Store.Basic
import RowML.Store.Subst
import RowML.Store.Zonk
import RowML.Surface.Basic
import RowML.Surface.Builder
import RowML.SymbolTable
import RowML.Term.Basic
import RowML.Unify.Engine
import RowML.Unify.Error
import RowML.Unify.Monad
import RowML.Unify.Rename
import RowML.Unify.Rows
