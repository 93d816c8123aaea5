import WordFields.Main
import WordFields.Proofs.Field.Division
import WordFields.Proofs.Field.Seam
import WordFields.Proofs.Field.Partition
import WordFields.Proofs.Field.Pruning
import WordFields.Proofs.Field.Frame
import WordFields.Proofs.Markup.Attribute
import WordFields.Proofs.Markup.Building
import WordFields.Proofs.Markup.FixedPoint
import WordFields.Proofs.Word.Passage
import WordFields.Proofs.Field.Editing
import WordFields.Proofs.Field.Cleaning
import WordFields.Proofs.Field.Substitution
import WordFields.Proofs.Field.Accounting
import WordFields.Proofs.Markup.Acceptance
import WordFields.Proofs.Markup.Clean
import WordFields.Proofs.Word.Likeness
import WordFields.Proofs.Field.Repetition
import WordFields.Proofs.Word.Twin
import WordFields.Proofs.Field.Recording
import WordFields.Proofs.Field.Rereading
import WordFields.Proofs.Tree.Ascent
import WordFields.Proofs.Tree.Numbering
import WordFields.Proofs.Markup.Arrangement
import WordFields.Proofs.Markup.Scoping
import WordFields.Proofs.Tree.History
import WordFields.Proofs.Word.Simplification
import WordFields.Proofs.Word.Stripping
import WordFields.Proofs.Field.Simplified
import WordFields.Proofs.Field.Origin
import WordFields.Proofs.Field.Recasting
import WordFields.Proofs.Field.Ordering
import WordFields.Proofs.Field.Composition
import WordFields.Proofs.Field.Display
import WordFields.Proofs.Field.Serialization
import WordFields.Proofs.Field.Policy
import WordFields.Proofs.Field.Result
import WordFields.Proofs.Field.Keeping
import WordFields.Proofs.CommandLine.Contract
import WordFields.Proofs.Field.Reporting
import WordFields.Proofs.Instruction.Partition
import WordFields.Proofs.Instruction.Reprinting
import WordFields.Proofs.Field.Recognition
import WordFields.Proofs.Number.Numeral
import WordFields.Proofs.Data.Interchange
import WordFields.Proofs.Data.IntegerRendering
import WordFields.Proofs.Text.Line
import WordFields.Proofs.Field.Comment
import WordFields.Proofs.Tree.Views
import WordFields.Proofs.Tree.Moving
import WordFields.Proofs.Field.Cutting
import WordFields.Proofs.Field.Locating
import WordFields.Proofs.Markup.Lockstep
import WordFields.Proofs.Number.Product
