import LivingDoc.Annotation
import LivingDoc.Command.Basic
import LivingDoc.Command.Registry
import LivingDoc.Evaluation.State
import LivingDoc.Evaluation.Walk
import LivingDoc.Expression.Basic
import LivingDoc.Expression.Reader
import LivingDoc.Fixture.Basic
import LivingDoc.Fixture.Invocation
import LivingDoc.Fixture.Scripted
import LivingDoc.Fixture.Table
import LivingDoc.Markup.Element
import LivingDoc.Markup.Scope
import LivingDoc.Markup.Traversal
import LivingDoc.Markup.Written
import LivingDoc.Number.Binary64
import LivingDoc.Number.Digits
import LivingDoc.Outcome
import LivingDoc.Report.Json
import LivingDoc.Report.Text
import LivingDoc.Resource
import LivingDoc.Run.Basic
import LivingDoc.Run.Process
import LivingDoc.Run.Suite
import LivingDoc.Settings.Configuration
import LivingDoc.Settings.Expectations
import LivingDoc.Storage.Documents
import LivingDoc.Storage.FilePath
import LivingDoc.Storage.FileTree
import LivingDoc.Summary
import LivingDoc.Text.Blank
import LivingDoc.Text.Uppercase
import LivingDoc.Toml.Basic
import LivingDoc.Toml.Reader
import LivingDoc.Toml.Scalar
import LivingDoc.Value.Basic
import LivingDoc.Value.Coercion
import LivingDoc.Xml.Character
import LivingDoc.Xml.Document
import LivingDoc.Xml.Fault
import LivingDoc.Xml.Infoset
import LivingDoc.Xml.Prolog
import LivingDoc.Xml.Reference
import LivingDoc.Xml.Scan
import LivingDoc.Xml.Token
import LivingDoc.Proofs.Run.Nesting
import LivingDoc.Proofs.Run.Active
import LivingDoc.Proofs.Run.Journal
import LivingDoc.Proofs.Markup.Escapes
import LivingDoc.Proofs.Markup.Names
import LivingDoc.Proofs.Markup.Reading
import LivingDoc.Proofs.Markup.Rereading
import LivingDoc.Proofs.Markup.RoundTrip
import LivingDoc.Proofs.Markup.Places
import LivingDoc.Proofs.Evaluation.Accounts
import LivingDoc.Proofs.Evaluation.Fold
import LivingDoc.Proofs.Evaluation.Steps
import LivingDoc.Proofs.Markup.Declarations
import LivingDoc.Proofs.Markup.Normal
import LivingDoc.Proofs.Markup.Expanded
import LivingDoc.Proofs.Markup.Accepted
import LivingDoc.Proofs.Run.Rendered
import LivingDoc.Proofs.Run.Shown
import LivingDoc.Proofs.Run.Stored
import LivingDoc.Proofs.Text.Words
import LivingDoc.Proofs.Markup.Classes
import LivingDoc.Proofs.Annotation.Rendering
import LivingDoc.Proofs.Markup.Preorder
import LivingDoc.Proofs.Annotation.Classes
import LivingDoc.Proofs.Annotation.Content
import LivingDoc.Proofs.Annotation.Undoing
import LivingDoc.Proofs.Expression.Grammar
import LivingDoc.Proofs.Expression.Literals
import LivingDoc.Proofs.Expression.Arguments
import LivingDoc.Proofs.Expression.Faults
import LivingDoc.Proofs.Expression.Reading
import LivingDoc.Proofs.Fixture.Calls
import LivingDoc.Proofs.Resource.Paths
import LivingDoc.Proofs.Resource.Files
import LivingDoc.Proofs.Run.Isolation
import LivingDoc.Proofs.Evaluation.Respelling
import LivingDoc.Proofs.Evaluation.Renaming
import LivingDoc.Proofs.Evaluation.Preparation
import LivingDoc.Proofs.Run.Totals
import LivingDoc.Proofs.Fixture.Binding
import LivingDoc.Proofs.Run.Ports
import LivingDoc.Proofs.Run.Suites
import LivingDoc.Proofs.Fixture.Accessors
import LivingDoc.Proofs.Fixture.Registration
import LivingDoc.Proofs.Evaluation.Assignments
import LivingDoc.Proofs.Expression.Positions
import LivingDoc.Proofs.Resource.References
import LivingDoc.Proofs.Text.Normalized
import LivingDoc.Proofs.Evaluation.Comparison
import LivingDoc.Proofs.Number.Decimal
import LivingDoc.Proofs.Value.Coercion
import LivingDoc.Proofs.Annotation.Repetition
import LivingDoc.Proofs.Run.Stylesheet
import LivingDoc.Proofs.Report.Faithful
import LivingDoc.Proofs.Resource.TypeNames
import LivingDoc.Proofs.Markup.Scopes
import LivingDoc.Proofs.Markup.Descendants
