import ObjectModel.Proofs.Change
import ObjectModel.Proofs.Discipline
import ObjectModel.Proofs.Slots
import ObjectModel.Session
import ObjectModel.Proofs.Routine.Basic
import ObjectModel.Proofs.Routine.Access
import ObjectModel.Proofs.Routine.Ordinary
import ObjectModel.Proofs.Routine.Proxy
import ObjectModel.Proofs.Routine.Realm
import ObjectModel.Proofs.Routine.Builtin
import ObjectModel.Proofs.Routine.Script
import ObjectModel.Proofs.Routine.Evaluation
import ObjectModel.Proofs.Routine.Step
import ObjectModel.Proofs.Agreement
import ObjectModel.Proofs.SourceContext
import ObjectModel.Proofs.Ascii
import ObjectModel.Proofs.Exact
import ObjectModel.Proofs.Rendering
import ObjectModel.Proofs.Serialization
import ObjectModel.Proofs.Integrity
import ObjectModel.Proofs.HandlerPrecedence
import ObjectModel.Proofs.Installation
import ObjectModel.Proofs.Operation
import ObjectModel.Proofs.LateInstallation
import ObjectModel.Proofs.Taking
import ObjectModel.Proofs.Moment
import ObjectModel.Proofs.Kinds
import ObjectModel.Proofs.Extensions
import ObjectModel.Proofs.IteratorProgress
import ObjectModel.Proofs.Description
import ObjectModel.Proofs.Forwarding
import ObjectModel.Proofs.Mirror
import ObjectModel.Proofs.Coherence
import ObjectModel.Proofs.Lineage
import ObjectModel.Proofs.Layers
import ObjectModel.Proofs.Termination
import ObjectModel.Proofs.ArrayLength
import ObjectModel.Proofs.Regularity
import ObjectModel.Proofs.Members
import ObjectModel.Proofs.Interleaving
import ObjectModel.Proofs.Rounding
import ObjectModel.Proofs.NumberText
import ObjectModel.Proofs.Literals
import ObjectModel.Proofs.Lowering
import ObjectModel.Proofs.SourceHook
import ObjectModel.Proofs.Unambiguous
import ObjectModel.Proofs.StringLiteral
import ObjectModel.Proofs.History
import ObjectModel.Proofs.TableHistory
import ObjectModel.Proofs.CollectionHistory
import ObjectModel.Proofs.HiddenTarget
import ObjectModel.Proofs.PrototypeWalk
import ObjectModel.Proofs.Definition
import ObjectModel.Proofs.Assignment
import ObjectModel.Proofs.Enumeration
import ObjectModel.Proofs.Fuel
import ObjectModel.Proofs.Transparency
import ObjectModel.Proofs.Listing
import ObjectModel.Proofs.IterationObject
import ObjectModel.Proofs.SharedIteration
import ObjectModel.Proofs.AccessorHalves
import ObjectModel.Proofs.Redescription
import ObjectModel.Proofs.RegexpLiteral
import ObjectModel.Proofs.ArrayReading
import ObjectModel.Proofs.Nearest
import ObjectModel.Proofs.NumericText
import ObjectModel.Proofs.PropertyNames
import ObjectModel.Proofs.AccessorLookup
import ObjectModel.Proofs.Positions
import ObjectModel.Text.Interned
import ObjectModel.Proofs.Encoding
import ObjectModel.Proofs.Interning
import ObjectModel.Proofs.KeyConversion
