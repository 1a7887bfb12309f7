import HclToJson.Main
import HclToJson.Proofs.Body.Conservation
import HclToJson.Proofs.Body.Effect
import HclToJson.Proofs.Body.Grouping
import HclToJson.Proofs.Body.Levels
import HclToJson.Proofs.Body.Merge
import HclToJson.Proofs.Body.Nesting
import HclToJson.Proofs.Command.Agreement
import HclToJson.Proofs.Command.Arguments
import HclToJson.Proofs.Comment.Lexeme
import HclToJson.Proofs.Convert.Marking
import HclToJson.Proofs.Convert.Rendering
import HclToJson.Proofs.Convert.Requoting
import HclToJson.Proofs.Convert.SourceText
import HclToJson.Proofs.Document.Agreement
import HclToJson.Proofs.Document.Isolation
import HclToJson.Proofs.Json.Reading
import HclToJson.Proofs.Json.Unspaced
import HclToJson.Proofs.Object.UpToOrder
import HclToJson.Proofs.Body.Reordering
import HclToJson.Proofs.Body.Conflict
import HclToJson.Proofs.Convert.Embedding
import HclToJson.Proofs.Convert.Context
import HclToJson.Proofs.Eval.Constant
import HclToJson.Proofs.Convert.Failure
import HclToJson.Proofs.Document.Constant
import HclToJson.Proofs.Convert.Literal
import HclToJson.Proofs.Comment.Lines
import HclToJson.Proofs.Comment.NormalForm
import HclToJson.Proofs.Comment.Blocks
import HclToJson.Proofs.Comment.Characters
import HclToJson.Proofs.Syntax.Relocate
import HclToJson.Proofs.Syntax.RelocatedText
import HclToJson.Proofs.Body.Relocate
