import SchemaScript.Main
import SchemaScript.Proofs.Statement.WellFormed
import SchemaScript.Proofs.Table.Spelling
import SchemaScript.Proofs.Statement.Reading
import SchemaScript.Proofs.Statement.Native
import SchemaScript.Proofs.Statement.Spelling
import SchemaScript.Proofs.Script.RoundTrip
import SchemaScript.Proofs.Revision.Alterations
import SchemaScript.Proofs.Revision.Indexes
import SchemaScript.Proofs.Revision.Normal
import SchemaScript.Proofs.Revision.Revised
import SchemaScript.Proofs.Revision.Preservation
import SchemaScript.Proofs.Revision.Shape
import SchemaScript.Proofs.Revision.Output
import SchemaScript.Proofs.Value.Acceptance
import SchemaScript.Proofs.Dialect.Completeness
import SchemaScript.Proofs.Revision.WellFormed
import SchemaScript.Proofs.Token.Concatenation
import SchemaScript.Proofs.Token.Tracking
import SchemaScript.Proofs.Statement.Tracking
import SchemaScript.Proofs.Script.Concatenation
import SchemaScript.Proofs.Revision.History
import SchemaScript.Proofs.Revision.References
import SchemaScript.Proofs.Statement.Scanning
import SchemaScript.Proofs.Statement.Terminator
import SchemaScript.Proofs.Script.Strings
import SchemaScript.Proofs.Revision.Notes
import SchemaScript.Proofs.Revision.Order
import SchemaScript.Proofs.Batch.Independence
import SchemaScript.Proofs.Revision.Naming
import SchemaScript.Proofs.Value.Flattening
import SchemaScript.Proofs.Token.Layout
import SchemaScript.Proofs.Batch.Ending
import SchemaScript.Proofs.Batch.Tree
import SchemaScript.Proofs.Batch.Directory
import SchemaScript.Proofs.Dialect.Quoted
import SchemaScript.Proofs.Dialect.Types
import SchemaScript.Proofs.Script.Blocks
import SchemaScript.Proofs.Script.Deferrable
import SchemaScript.Proofs.Statement.Boundary
import SchemaScript.Proofs.Script.Additions
import SchemaScript.Proofs.Script.Comments
import SchemaScript.Proofs.Script.Positions
import SchemaScript.Proofs.Revision.Report
import SchemaScript.Proofs.Statement.Collapsing
