import CanonicalXml.CommandLine.Report
import CanonicalXml.Main
import CanonicalXml.Proofs.Along
import CanonicalXml.Proofs.Traversal
import CanonicalXml.Proofs.AxisFrames
import CanonicalXml.Proofs.InScope
import CanonicalXml.Proofs.Rendering
import CanonicalXml.Proofs.Settling
import CanonicalXml.Proofs.NamespaceRules
import CanonicalXml.Proofs.AttributeAxis
import CanonicalXml.Proofs.NamespaceReader
import CanonicalXml.Proofs.Spelled.Names
import CanonicalXml.Proofs.Spelled.Escapes
import CanonicalXml.Proofs.Spelled.Tags
import CanonicalXml.Proofs.Spelled.Leaves
import CanonicalXml.Proofs.Spelled.Forms
import CanonicalXml.Proofs.Spelled.Scripts
import CanonicalXml.Proofs.Spelled.Drafts
import CanonicalXml.Proofs.Spelled.Contents
import CanonicalXml.Proofs.Readback.Views
import CanonicalXml.Proofs.Spelled.Pages
import CanonicalXml.Proofs.Readback.Names
import CanonicalXml.Proofs.Readback.Attributes
import CanonicalXml.Proofs.Readback.Tags
import CanonicalXml.Proofs.Readback.Content
import CanonicalXml.Proofs.Readback.Apex
import CanonicalXml.Proofs.Parsed.Lexemes
import CanonicalXml.Proofs.Parsed.Drafts
import CanonicalXml.Proofs.Readback.Documents
import CanonicalXml.Proofs.InputForms.Forms
import CanonicalXml.Proofs.Comparison.Declarations
import CanonicalXml.Proofs.Comparison.Tags
import CanonicalXml.Proofs.Surroundings
import CanonicalXml.Proofs.AttributeOrder
import CanonicalXml.Proofs.Rearranged.Attributes
import CanonicalXml.Proofs.Rearranged.Documents
import CanonicalXml.Proofs.FixedPoint.Documents
import CanonicalXml.Proofs.Inherited.Attributes
import CanonicalXml.Proofs.BaseUri.DotSegments
import CanonicalXml.Proofs.BaseUri.NormalForm
import CanonicalXml.Proofs.BaseUri.Joining
import CanonicalXml.Proofs.Inherited.Bases
import CanonicalXml.Proofs.BaseUri.StandardResolution
import CanonicalXml.Proofs.BaseUri.Recovery
import CanonicalXml.Proofs.Lexical.Names
import CanonicalXml.Proofs.Physical.Documents
import CanonicalXml.Proofs.Embedding
import CanonicalXml.Proofs.FullLists
import CanonicalXml.Proofs.SecureValidation.Modes
import CanonicalXml.Proofs.Sessions.Calls
import CanonicalXml.Proofs.AxisCopies
import CanonicalXml.Proofs.NodeSetAlgebra
import CanonicalXml.Proofs.DisjointTrees.Walks
import CanonicalXml.Proofs.Serialization.Tags
import CanonicalXml.Proofs.Spelled.Escaping
import CanonicalXml.Proofs.TagOrder
import CanonicalXml.Proofs.Runs
import CanonicalXml.Proofs.RegistryCalls
import CanonicalXml.Proofs.References
