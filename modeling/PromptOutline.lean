import PromptOutline.Check
import PromptOutline.Main
import PromptOutline.Proofs.Embedded
import PromptOutline.Proofs.Failure
import PromptOutline.Proofs.FileText
import PromptOutline.Proofs.FixedPoint
import PromptOutline.Proofs.Inert
import PromptOutline.Proofs.JoinedLinks
import PromptOutline.Proofs.Reports
import PromptOutline.Proofs.Rereading
import PromptOutline.Proofs.Reuse
import PromptOutline.Proofs.SearchPaths
import PromptOutline.Proofs.SectionLines
import PromptOutline.Proofs.Substitution
import PromptOutline.Token.Queue
import PromptOutline.Proofs.Balance
import PromptOutline.Proofs.Carets
import PromptOutline.Proofs.Positions
import PromptOutline.Proofs.DocumentJson
import PromptOutline.Proofs.OpenedFile
import PromptOutline.Proofs.OpenedReading
import PromptOutline.Proofs.OutputFile
import PromptOutline.Proofs.Comments
import PromptOutline.Proofs.Rejoining
import PromptOutline.Proofs.Separation
import PromptOutline.Proofs.Drawing
import PromptOutline.Proofs.Exits
import PromptOutline.Proofs.LiteralNames
import PromptOutline.Proofs.StarRuns
import PromptOutline.Proofs.LineShapes
import PromptOutline.Proofs.CommandSettings
