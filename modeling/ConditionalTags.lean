import ConditionalTags.Clause
import ConditionalTags.Condition.Basic
import ConditionalTags.Condition.Reader
import ConditionalTags.Condition.Written
import ConditionalTags.Fault
import ConditionalTags.Json.Basic
import ConditionalTags.Json.TagObject
import ConditionalTags.Main
import ConditionalTags.Outline
import ConditionalTags.Program.Arguments
import ConditionalTags.Program.Logging
import ConditionalTags.Program.Session
import ConditionalTags.Proofs.Acceptance
import ConditionalTags.Proofs.Agreement
import ConditionalTags.Proofs.Appending
import ConditionalTags.Proofs.Blame
import ConditionalTags.Proofs.Bracketing
import ConditionalTags.Proofs.Brackets
import ConditionalTags.Proofs.Caret
import ConditionalTags.Proofs.Chunks
import ConditionalTags.Proofs.ClauseScan
import ConditionalTags.Proofs.Course
import ConditionalTags.Proofs.Delimited
import ConditionalTags.Proofs.Division
import ConditionalTags.Proofs.FailureReport
import ConditionalTags.Proofs.Filtering
import ConditionalTags.Proofs.Finality
import ConditionalTags.Proofs.Formatting
import ConditionalTags.Proofs.Indentation
import ConditionalTags.Proofs.JsonReading
import ConditionalTags.Proofs.KeywordWindow
import ConditionalTags.Proofs.Layout
import ConditionalTags.Proofs.LevelContent
import ConditionalTags.Proofs.LineBreaks
import ConditionalTags.Proofs.LogLines
import ConditionalTags.Proofs.Nesting
import ConditionalTags.Proofs.Notes
import ConditionalTags.Proofs.Offset
import ConditionalTags.Proofs.Outcome
import ConditionalTags.Proofs.OutlineReading
import ConditionalTags.Proofs.Pending
import ConditionalTags.Proofs.Pieces
import ConditionalTags.Proofs.Plain
import ConditionalTags.Proofs.RoundTrip
import ConditionalTags.Proofs.Scanned
import ConditionalTags.Proofs.Shape
import ConditionalTags.Proofs.Spans
import ConditionalTags.Proofs.StringGrammar
import ConditionalTags.Proofs.TagGrammar
import ConditionalTags.Proofs.Token
import ConditionalTags.Proofs.TokenReader
import ConditionalTags.Proofs.Transcript
import ConditionalTags.Proofs.Trim
import ConditionalTags.Proofs.WrittenLeaf
import ConditionalTags.Proofs.WrittenReader
import ConditionalTags.Text.Blank
import ConditionalTags.Text.Cut
