import RegexTree.CodePoint.Draft
import RegexTree.CodePoint.Sweep
import RegexTree.Regex.Text
import RegexTree.Symbol.CallLog
import RegexTree.Pattern.Grammar
import RegexTree.Pattern.Nesting
import RegexTree.Pattern.Parser
import RegexTree.Pattern.Descent
import RegexTree.Pattern.Printer
import RegexTree.Proofs.CodePoint.NormalForm
import RegexTree.Proofs.CodePoint.Normalization
import RegexTree.Proofs.CodePoint.Subtraction
import RegexTree.Proofs.CodePoint.Sweep
import RegexTree.Proofs.CodePoint.Denotation
import RegexTree.Proofs.CodePoint.Canonicity
import RegexTree.Proofs.CodePoint.Complement
import RegexTree.Proofs.CodePoint.Size
import RegexTree.Proofs.Reader.Move
import RegexTree.Proofs.Reader.Run
import RegexTree.Proofs.Reader.Viability
import RegexTree.Proofs.Reader.Depth
import RegexTree.Proofs.Reader.Limit
import RegexTree.Proofs.Reader.Transcription
import RegexTree.Proofs.Reader.Stop
import RegexTree.Proofs.Grammar.Acceptance
import RegexTree.Proofs.Grammar.Building
import RegexTree.Proofs.Grammar.Spelling
import RegexTree.Proofs.Grammar.Language
import RegexTree.Proofs.Symbol.Logging
import RegexTree.Proofs.Grammar.CallOrder
import RegexTree.Proofs.Grammar.Height
import RegexTree.Proofs.Grammar.RoundTrip
import RegexTree.Proofs.CodePoint.Membership
import RegexTree.Proofs.Grammar.ClassMeaning
import RegexTree.Proofs.Grammar.Diagnosis
import RegexTree.Proofs.CodePoint.UniqueText
import RegexTree.Proofs.Regex.UniqueText
import RegexTree.Proofs.Grammar.Negation
import RegexTree.Proofs.Reader.Grouping
import RegexTree.Proofs.Grammar.Pieces
import RegexTree.Proofs.Grammar.Rows
import RegexTree.Proofs.Grammar.Composition
import RegexTree.Proofs.Grammar.Emptiness
import RegexTree.Proofs.Descent.Ends
import RegexTree.Proofs.Descent.Progress
import RegexTree.Proofs.Descent.Fuel
import RegexTree.Proofs.Descent.Moments
import RegexTree.Proofs.Descent.Agreement
import RegexTree.Proofs.Descent.Classes
import RegexTree.Proofs.Descent.Routines
import RegexTree.Proofs.Descent.Discipline
