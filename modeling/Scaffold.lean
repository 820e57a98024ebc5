import Scaffold.Main
import Scaffold.Proofs.Run.Order
import Scaffold.Proofs.Run.Tests
import Scaffold.Proofs.Run.Walk
import Scaffold.Proofs.Run.Again
import Scaffold.Proofs.Path.Import
import Scaffold.Proofs.Document.Imports
import Scaffold.Proofs.Extraction.Exported
import Scaffold.Proofs.Document.Functions
import Scaffold.Proofs.Comments.Extraction
import Scaffold.Proofs.Run.Sources
import Scaffold.Proofs.Extraction.Located
import Scaffold.Proofs.Extraction.Shifted
import Scaffold.Proofs.Scan.Matching
import Scaffold.Proofs.Outline.Roundtrip
import Scaffold.Proofs.CommandLine.Effect
import Scaffold.Proofs.Extraction.Checked
import Scaffold.Proofs.Extraction.Hidden
import Scaffold.Proofs.Extraction.Parameters
import Scaffold.Proofs.Extraction.Reserved
import Scaffold.Proofs.Document.Calls
import Scaffold.Proofs.Run.Atomic
import Scaffold.Proofs.Extraction.Importable
import Scaffold.Proofs.Run.Summary
import Scaffold.Proofs.Run.Specifier
import Scaffold.Proofs.Path.Below
import Scaffold.Proofs.Document.Literal
import Scaffold.Proofs.Scan.Seam
import Scaffold.Proofs.Document.Placeholder
import Scaffold.Proofs.Settings.Location
import Scaffold.Proofs.Settings.Layers
import Scaffold.Proofs.Extraction.Parentheses
import Scaffold.Proofs.Path.Canonical
import Scaffold.Proofs.Document.Binding
