import ActionBytecode.Code.Assembly
import ActionBytecode.Code.Basic
import ActionBytecode.Code.Disassembly
import ActionBytecode.Code.Instruction
import ActionBytecode.Code.Location
import ActionBytecode.Code.Opcode
import ActionBytecode.Code.Operand
import ActionBytecode.CodeUnit.Basic
import ActionBytecode.CodeUnit.Creation
import ActionBytecode.CodeUnit.Decoding
import ActionBytecode.CodeUnit.Editing
import ActionBytecode.CodeUnit.Encoding
import ActionBytecode.CodeUnit.Listing
import ActionBytecode.CodeUnit.Summary
import ActionBytecode.CodeUnit.Uses
import ActionBytecode.Command.Arguments
import ActionBytecode.Command.FileTree
import ActionBytecode.Command.Run
import ActionBytecode.Constant.Indexing
import ActionBytecode.Constant.Pool
import ActionBytecode.Constant.Value
import ActionBytecode.Decimal.Double
import ActionBytecode.Decimal.Shortest
import ActionBytecode.Declaration.Class
import ActionBytecode.Declaration.Method
import ActionBytecode.Declaration.Trait
import ActionBytecode.Fault
import ActionBytecode.IdTable
import ActionBytecode.Layout.Class
import ActionBytecode.Layout.Method
import ActionBytecode.Layout.Pool
import ActionBytecode.Layout.Tables
import ActionBytecode.Layout.Trait
import ActionBytecode.Layout.Value
import ActionBytecode.Main
import ActionBytecode.Name.Multiname
import ActionBytecode.Name.Namespace
import ActionBytecode.Name.NamespaceSet
import ActionBytecode.Name.Parts
import ActionBytecode.Numbering
import ActionBytecode.Settings.Basic
import ActionBytecode.Settings.Document
import ActionBytecode.Settings.Scalar
import ActionBytecode.Settings.Scanner
import ActionBytecode.Settings.Table
import ActionBytecode.Settings.Text
import ActionBytecode.Text.Json
import ActionBytecode.Text.Numeral
import ActionBytecode.Text.Printable
import ActionBytecode.Text.Quoted
import ActionBytecode.Text.Utf8
import ActionBytecode.Wire.Cursor
import ActionBytecode.Wire.Fixed
import ActionBytecode.Wire.Packed
import ActionBytecode.Proofs.Admission
import ActionBytecode.Proofs.Assembly
import ActionBytecode.Proofs.Atomicity
import ActionBytecode.Proofs.Closure
import ActionBytecode.Proofs.Coherence
import ActionBytecode.Proofs.Composition
import ActionBytecode.Proofs.Confinement
import ActionBytecode.Proofs.Constants
import ActionBytecode.Proofs.Containment
import ActionBytecode.Proofs.Declarations
import ActionBytecode.Proofs.Diagnosis
import ActionBytecode.Proofs.Disassembly
import ActionBytecode.Proofs.Encodability
import ActionBytecode.Proofs.Failure
import ActionBytecode.Proofs.FixedPoint
import ActionBytecode.Proofs.Forms
import ActionBytecode.Proofs.Handles
import ActionBytecode.Proofs.Indexing
import ActionBytecode.Proofs.Instructions
import ActionBytecode.Proofs.Instrumentation
import ActionBytecode.Proofs.Interning
import ActionBytecode.Proofs.Labels
import ActionBytecode.Proofs.Legibility
import ActionBytecode.Proofs.NamespaceSets
import ActionBytecode.Proofs.Numberings
import ActionBytecode.Proofs.Operands
import ActionBytecode.Proofs.Outcome
import ActionBytecode.Proofs.PackedNumbers
import ActionBytecode.Proofs.Persistence
import ActionBytecode.Proofs.Pool
import ActionBytecode.Proofs.PoolContents
import ActionBytecode.Proofs.PrivateNames
import ActionBytecode.Proofs.Provenance
import ActionBytecode.Proofs.Reachability
import ActionBytecode.Proofs.Reading
import ActionBytecode.Proofs.Reassembly
import ActionBytecode.Proofs.Recovery
import ActionBytecode.Proofs.Reencoding
import ActionBytecode.Proofs.References
import ActionBytecode.Proofs.Renaming
import ActionBytecode.Proofs.Resolution
import ActionBytecode.Proofs.Restoration
import ActionBytecode.Proofs.Revisit
import ActionBytecode.Proofs.Rewriting
import ActionBytecode.Proofs.RoundTrip
import ActionBytecode.Proofs.Scanning
import ActionBytecode.Proofs.Soundness
import ActionBytecode.Proofs.Streams
import ActionBytecode.Proofs.Targets
import ActionBytecode.Proofs.TraitLists
import ActionBytecode.Proofs.Transport
import ActionBytecode.Proofs.Truncation
import ActionBytecode.Proofs.Visit
import ActionBytecode.Proofs.Weight
import ActionBytecode.Proofs.Wire
import ActionBytecode.Proofs.WireItems
import ActionBytecode.Proofs.WirePool
import ActionBytecode.Proofs.Writing
import ActionBytecode.Proofs.Yield
