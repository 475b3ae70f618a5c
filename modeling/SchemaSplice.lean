import SchemaSplice.Annotation.Parser
import SchemaSplice.Binary64.Read
import SchemaSplice.Binary64.Written
import SchemaSplice.Command.Run
import SchemaSplice.Configuration.Config
import SchemaSplice.Declaration.Inquiry
import SchemaSplice.Disk.Directory
import SchemaSplice.Main
import SchemaSplice.Proofs.Brackets.Closing
import SchemaSplice.Proofs.Descent.Covering
import SchemaSplice.Proofs.Descent.Members
import SchemaSplice.Proofs.Enums.Literals
import SchemaSplice.Proofs.Grammar.Arrows
import SchemaSplice.Proofs.Grammar.Readings
import SchemaSplice.Proofs.Imports.Placement
import SchemaSplice.Proofs.Meaning.Calls
import SchemaSplice.Proofs.Meaning.Faithful
import SchemaSplice.Proofs.Printing.SelfContained
import SchemaSplice.Proofs.Rerun.Idempotence
import SchemaSplice.Proofs.Resolution.Collections
import SchemaSplice.Proofs.Resolution.Forwards
import SchemaSplice.Proofs.Resolution.Settling
import SchemaSplice.Proofs.Splice.FixedPoint
import SchemaSplice.Proofs.Splice.Imports
import SchemaSplice.Proofs.Splice.Names
import SchemaSplice.Proofs.Splice.Rejection
import SchemaSplice.Proofs.Splice.Sequence
import SchemaSplice.Proofs.Tokens.Coverage
import SchemaSplice.Proofs.Unions.Canonical
import SchemaSplice.Run.Pass
import SchemaSplice.Source.Edit
import SchemaSplice.Source.Expression
import SchemaSplice.Text.Blank
import SchemaSplice.Text.Quoted
import SchemaSplice.Text.Search
import SchemaSplice.Types.Builtin
import SchemaSplice.Validator.Printer
import SchemaSplice.Validator.Synthesis
