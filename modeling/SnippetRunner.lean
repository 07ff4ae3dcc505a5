import SnippetRunner.Text.Split
import SnippetRunner.Text.Bytes
import SnippetRunner.Text.Word
import SnippetRunner.Source.Region
import SnippetRunner.Source.Statement
import SnippetRunner.Script.Capture
import SnippetRunner.Script.Return
import SnippetRunner.Script.Normalize
import SnippetRunner.Script.Transform
import SnippetRunner.Capability
import SnippetRunner.Number.Decimal
import SnippetRunner.Json.Printer
import SnippetRunner.Json.Reader
import SnippetRunner.Snapshot.Codec
import SnippetRunner.Snapshot.Render
import SnippetRunner.Heap.Inspect
import SnippetRunner.Log
import SnippetRunner.Error.Diagnostic
import SnippetRunner.Script.Encode
import SnippetRunner.Run.Reply
import SnippetRunner.Run.Registry
import SnippetRunner.Run.State
import SnippetRunner.Run.Execution
import SnippetRunner.Main
import SnippetRunner.Proofs.Text.Cut
import SnippetRunner.Proofs.Source.Lexing
import SnippetRunner.Proofs.Source.Pushdown
import SnippetRunner.Proofs.Source.Walk
import SnippetRunner.Proofs.Script.Lines
import SnippetRunner.Proofs.Script.LineAttribution
import SnippetRunner.Proofs.Script.Declarations
import SnippetRunner.Proofs.Script.LineCount
import SnippetRunner.Proofs.Source.Progress
import SnippetRunner.Proofs.Source.Ending
import SnippetRunner.Proofs.Script.Parts
import SnippetRunner.Proofs.Source.Detached
import SnippetRunner.Proofs.Script.Wrapping
import SnippetRunner.Proofs.Script.LineWalk
import SnippetRunner.Proofs.Script.Recapture
import SnippetRunner.Proofs.Source.Fresh
import SnippetRunner.Proofs.Script.Returned
import SnippetRunner.Proofs.Script.Rereturn
import SnippetRunner.Proofs.Script.ReturnedLines
import SnippetRunner.Proofs.Script.Stability
import SnippetRunner.Proofs.Snapshot.Nodes
import SnippetRunner.Proofs.Inspect.Stack
import SnippetRunner.Proofs.Inspect.Tree
import SnippetRunner.Proofs.Inspect.Cycles
import SnippetRunner.Proofs.Number.Double
import SnippetRunner.Proofs.Snapshot.Codec
import SnippetRunner.Proofs.Json.Number
import SnippetRunner.Proofs.Json.Text
import SnippetRunner.Proofs.Snapshot.Exchange
import SnippetRunner.Proofs.Run.Reply
import SnippetRunner.Proofs.Source.Encoded
import SnippetRunner.Proofs.Offset.Search
import SnippetRunner.Proofs.Offset.Replacing
import SnippetRunner.Proofs.Offset.Returning
import SnippetRunner.Proofs.Offset.Capturing
import SnippetRunner.Proofs.Offset.Preparing
import SnippetRunner.Proofs.Script.ReturnCut
import SnippetRunner.Proofs.Script.ReservedWords
import SnippetRunner.Proofs.Script.ModuleDetection
import SnippetRunner.Proofs.Script.Continuation
import SnippetRunner.Proofs.Script.Substitutions
import SnippetRunner.Proofs.Source.Veil
import SnippetRunner.Proofs.Source.Borders
import SnippetRunner.Proofs.Text.Alike
import SnippetRunner.Proofs.Script.Detection
import SnippetRunner.Proofs.Source.Uncommented
import SnippetRunner.Proofs.Source.CommentVeil
import SnippetRunner.Proofs.Script.VeiledLine
import SnippetRunner.Proofs.Script.VeiledReturn
import SnippetRunner.Proofs.Script.Twins
import SnippetRunner.Proofs.Script.CommentedScript
import SnippetRunner.Proofs.Script.Leftovers
import SnippetRunner.Proofs.Run.History
import SnippetRunner.Proofs.Inspect.Levels
import SnippetRunner.Proofs.Run.Retry
import SnippetRunner.Proofs.Script.Written
import SnippetRunner.Proofs.Script.Calm
import SnippetRunner.Proofs.Script.Translation
import SnippetRunner.Proofs.Script.Unreached
import SnippetRunner.Proofs.Script.CapturedLine
import SnippetRunner.Proofs.Script.StatementForms
import SnippetRunner.Proofs.Script.CallArguments
import SnippetRunner.Proofs.Script.LineEnds
import SnippetRunner.Proofs.Error.Caret
import SnippetRunner.Proofs.Source.Enclosed
import SnippetRunner.Proofs.Script.Containment
import SnippetRunner.Proofs.Script.References
import SnippetRunner.Proofs.Script.Annotated
import SnippetRunner.Proofs.Script.AnnotatedDeclaration
import SnippetRunner.Proofs.Error.StackFrames
import SnippetRunner.Proofs.Inspect.ShownKeys
import SnippetRunner.Proofs.Inspect.PrototypeSlot
import SnippetRunner.Proofs.Snapshot.Agreement
import SnippetRunner.Proofs.Inspect.FailedReads
import SnippetRunner.Proofs.Offset.Tables
import SnippetRunner.Proofs.Script.PlainStatements
import SnippetRunner.Proofs.Script.KeptWords
