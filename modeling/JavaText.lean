import JavaText.Command.Folder
import JavaText.Main
import JavaText.Print.Printer
import JavaText.Proofs.ArrayTypes
import JavaText.Proofs.CommentFirst
import JavaText.Proofs.CommentRuns
import JavaText.Proofs.CommentsOnce
import JavaText.Proofs.Coverage
import JavaText.Proofs.Digits
import JavaText.Proofs.DottedNames
import JavaText.Proofs.Failure
import JavaText.Proofs.JsonFits
import JavaText.Proofs.JsonRecord
import JavaText.Proofs.JsonText
import JavaText.Proofs.JsonTree
import JavaText.Proofs.Levels
import JavaText.Proofs.ModifierSpellings
import JavaText.Proofs.ModifierText
import JavaText.Proofs.MovedStarts
import JavaText.Proofs.PrefixOperators
import JavaText.Proofs.PresentedTree
import JavaText.Proofs.RuleRemarks
import JavaText.Proofs.SinkLines
import JavaText.Proofs.StandardOutput
import JavaText.Proofs.Stripped
import JavaText.Proofs.Strokes
import JavaText.Proofs.Traversal
import JavaText.Proofs.UnitOrphans
import JavaText.Proofs.UnknownKind
import JavaText.Proofs.WellBracketed
import JavaText.Tree.Build
