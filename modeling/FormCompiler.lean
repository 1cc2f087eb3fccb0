import FormCompiler.Text.Alphanumeric
import FormCompiler.Text.Ascii
import FormCompiler.Text.Blank
import FormCompiler.Text.Lowercase
import FormCompiler.Text.Pieces
import FormCompiler.Text.Printable
import FormCompiler.Text.Uppercase
import FormCompiler.Number.Decimal
import FormCompiler.Code.Literal
import FormCompiler.Code.Statement
import FormCompiler.Xml.Escape
import FormCompiler.Xml.Position
import FormCompiler.Xml.Token
import FormCompiler.Xml.Tree
import FormCompiler.Xml.Writer
import FormCompiler.Document.Choice
import FormCompiler.Document.Form
import FormCompiler.Document.Node
import FormCompiler.Document.Reading
import FormCompiler.Document.Walk
import FormCompiler.Document.Writing
import FormCompiler.Form.Image
import FormCompiler.Form.Property
import FormCompiler.Classes.Custom
import FormCompiler.Classes.Headers
import FormCompiler.Naming.Name
import FormCompiler.Naming.Table
import FormCompiler.Setup.Functions
import FormCompiler.Header.Declaration
import FormCompiler.Header.Images
import FormCompiler.Header.Includes
import FormCompiler.Files.Store
import FormCompiler.Options
import FormCompiler.Compile
import FormCompiler.Command
import FormCompiler.Main
import FormCompiler.Proofs.Xml.Transcripts
import FormCompiler.Proofs.Payloads
import FormCompiler.Proofs.Document.Conformance
import FormCompiler.Proofs.Document.Resaving
import FormCompiler.Proofs.Document.Traces
import FormCompiler.Proofs.Naming.Runs
import FormCompiler.Proofs.Naming.FreeNames
import FormCompiler.Proofs.Header.Members
import FormCompiler.Proofs.Classes.Inheritance
import FormCompiler.Proofs.Code.Segments
import FormCompiler.Proofs.Setup.Brushes
import FormCompiler.Proofs.Setup.Order
import FormCompiler.Proofs.Setup.Classes
import FormCompiler.Proofs.Setup.GivenNames
import FormCompiler.Proofs.Setup.Adoption
import FormCompiler.Proofs.Setup.TabOrder
import FormCompiler.Proofs.Setup.MarginTypes
import FormCompiler.Proofs.Setup.BareLayouts
import FormCompiler.Proofs.Setup.Pictures
import FormCompiler.Proofs.Setup.Connections
import FormCompiler.Proofs.Setup.Enrolment
import FormCompiler.Proofs.Setup.ComboBoxes
import FormCompiler.Proofs.Header.Gallery
import FormCompiler.Proofs.Header.Embedding
import FormCompiler.Proofs.Header.Inclusion
import FormCompiler.Proofs.Header.Rows
import FormCompiler.Proofs.Extraction
import FormCompiler.Proofs.Delivery
import FormCompiler.Proofs.Manifest
import FormCompiler.Proofs.Translation
import FormCompiler.Proofs.Rearrangement
